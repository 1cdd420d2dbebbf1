import Asl.Proofs.Token.Munch

/-!
# Maximal munch

The lexer divides a text into longest words, for a token or for a blank or a comment, and it stops
at the first place where no rule matches or where a number does not fit. The tokens, and the place
where a failing text goes wrong, are those that the declared rules determine.
-/
namespace Asl

open scoped Computability
open Text (byteLength)

/-- A text divides, from an offset on, into tokens with blanks and comments, up to some place. -/
inductive Divides : Nat → List Char → List Token → List Char → Prop
  | here (offset : Nat) (cs : List Char) : Divides offset cs [] cs
  | skip {offset : Nat} {cs w rest : List Char} {p : Pattern} {ts : List Token}
      (hw : p.Munches w cs) (hskipped : p.isSkipped = true)
      (hrest : Divides (offset + byteLength w) (cs.drop w.length) ts rest) :
      Divides offset cs ts rest
  | token {offset : Nat} {cs w rest : List Char} {p : Pattern} {kind : TokenKind}
      {ts : List Token} (hw : p.Munches w cs) (hskipped : p.isSkipped = false)
      (hkind : p.Decodes w kind)
      (hrest : Divides (offset + byteLength w) (cs.drop w.length) ts rest) :
      Divides offset cs (⟨kind, offset, offset + byteLength w, String.ofList w⟩ :: ts) rest

/-- What a message shows of a place where no rule matches: an opening double quote with the longest
row of units behind it, and otherwise one character. -/
inductive Shown : List Char → List Char → Prop
  | text {cs units : List Char} (hunits : units ∈ (unitOf '"')∗) (hfront : units <+: cs)
      (hlongest : ∀ units' ∈ (unitOf '"')∗, units' <+: cs → units'.length ≤ units.length) :
      Shown ('"' :: cs) ('"' :: units)
  | character {c : Char} {cs : List Char} (hc : c ≠ '"') : Shown (c :: cs) [c]

/-- The division of a text cannot go on at a place: no rule matches, or a number does not fit. -/
inductive Stuck (offset : Nat) (cs : List Char) : LexError → Prop
  | unmatched {w : List Char} (hnone : ∀ (p : Pattern) w, w ∈ p.language → ¬w <+: cs)
      (hshown : Shown cs w) : Stuck offset cs (.unexpected (String.ofList w) offset)
  | overflow {p : Pattern} {w : List Char} {e : LexError} (hw : p.Munches w cs)
      (hoverflow : p.Overflows w e) : Stuck offset cs e

inductive Munched (offset : Nat) (cs : List Char) : Except LexError (List Token) → Prop
  | whole {ts : List Token} (h : Divides offset cs ts []) : Munched offset cs (.ok ts)
  | stuck {ts : List Token} {front rest : List Char} {e : LexError} (hcs : cs = front ++ rest)
      (h : Divides offset cs ts rest) (hstuck : Stuck (offset + byteLength front) rest e) :
      Munched offset cs (.error e)

theorem Pattern.Munches.append_drop {p : Pattern} {w cs : List Char} (h : p.Munches w cs) :
    w ++ cs.drop w.length = cs := List.prefix_append_drop h.front |>.symm

theorem Pattern.Munches.take_length {p : Pattern} {w cs : List Char} (h : p.Munches w cs) :
    cs.take w.length = w := (List.prefix_iff_eq_take.1 h.front).symm

theorem shown_unmatched {cs : List Char} (h : cs ≠ []) : Shown cs (unmatched cs) := by
  obtain ⟨c, cs, rfl⟩ := List.exists_cons_of_ne_nil h
  by_cases hc : c = '"'
  · subst hc
    refine .text (mem_star_unitOf.2 (rawText_take cs)) (List.take_prefix _ _) ?_
    rintro units hunits ⟨rest, rfl⟩
    have hlength := (mem_star_unitOf.1 hunits).unitsLength_append rest
    rw [List.length_take_of_le (unitsLength_le _), hlength]
    exact Nat.le_add_right _ _
  · rw [unmatched_cons hc]
    exact .character hc

theorem Munched.skip {offset : Nat} {cs w : List Char} {p : Pattern}
    {result : Except LexError (List Token)} (hw : p.Munches w cs) (hskipped : p.isSkipped = true)
    (h : Munched (offset + byteLength w) (cs.drop w.length) result) : Munched offset cs result := by
  cases h with
  | whole h => exact .whole (.skip hw hskipped h)
  | @stuck ts front rest e hcs h hstuck =>
    have hfront : cs = (w ++ front) ++ rest := by rw [List.append_assoc, ← hcs, hw.append_drop]
    refine .stuck hfront (.skip hw hskipped h) ?_
    rwa [Text.byteLength_append, ← Nat.add_assoc]

theorem Munched.token {offset : Nat} {cs w : List Char} {p : Pattern} {kind : TokenKind}
    {result : Except LexError (List Token)} (hw : p.Munches w cs) (hskipped : p.isSkipped = false)
    (hkind : p.Decodes w kind)
    (h : Munched (offset + byteLength w) (cs.drop w.length) result) :
    Munched offset cs (do
      let ts ← result
      return ⟨kind, offset, offset + byteLength w, String.ofList w⟩ :: ts) := by
  cases h with
  | whole h => exact .whole (.token hw hskipped hkind h)
  | @stuck ts front rest e hcs h hstuck =>
    have hfront : cs = (w ++ front) ++ rest := by rw [List.append_assoc, ← hcs, hw.append_drop]
    refine .stuck hfront (.token hw hskipped hkind h) ?_
    rwa [Text.byteLength_append, ← Nat.add_assoc]

theorem munched_tokensFrom (offset : Nat) (cs : List Char) :
    Munched offset cs (tokensFrom offset cs) := by
  fun_induction tokensFrom offset cs with
  | case1 offset => exact .whole (.here _ _)
  | case2 offset cs hne hnone =>
    have hfront : cs = [] ++ cs := rfl
    refine .stuck hfront (.here offset cs) (.unmatched ?_ (shown_unmatched hne))
    exact fun p w hw => Pattern.not_mem_of_farthest hnone p hw
  | case3 offset cs hne r n hfarthest lexeme stop hskipped ih =>
    obtain ⟨p, w, rfl, hw, rfl⟩ := Pattern.exists_munches hfarthest
    rw [Pattern.isSkipped_rule] at hskipped
    simp only [stop, lexeme, hw.take_length] at ih ⊢
    exact .skip hw hskipped ih
  | case4 offset cs hne r n hfarthest lexeme stop hskipped ih =>
    obtain ⟨p, w, rfl, hw, rfl⟩ := Pattern.exists_munches hfarthest
    rw [Pattern.isSkipped_rule, Bool.not_eq_true] at hskipped
    simp only [stop, lexeme, hw.take_length] at ih ⊢
    have hgives := (hw.kind_eq_iff hskipped).1 rfl
    cases hkind : p.rule.kind w with
    | error e =>
      rw [hkind] at hgives
      have hfront : cs = [] ++ cs := rfl
      exact .stuck hfront (.here offset cs) (.overflow hw hgives)
    | ok kind =>
      rw [hkind] at hgives
      exact .token hw hskipped hgives ih

theorem Pattern.Munches.tokensFrom_eq {p : Pattern} {w rest : List Char} {offset : Nat}
    (h : p.Munches w (w ++ rest)) :
    tokensFrom offset (w ++ rest) =
      if p.isSkipped then tokensFrom (offset + byteLength w) rest
      else do
        let kind ← p.rule.kind w
        let ts ← tokensFrom (offset + byteLength w) rest
        return ⟨kind, offset, offset + byteLength w, String.ofList w⟩ :: ts := by
  rw [tokensFrom_of_farthest h.farthest, List.take_left, List.drop_left, isSkipped_rule]

theorem Divides.tokensFrom_front {offset : Nat} {cs rest : List Char} {ts : List Token}
    (h : Divides offset cs ts rest) :
    ∃ front, cs = front ++ rest ∧ tokensFrom offset front = .ok ts := by
  induction h with
  | here offset cs => exact ⟨[], rfl, by rw [tokensFrom, if_pos rfl]⟩
  | @skip offset cs w rest p ts hw hskipped hrest ih =>
    obtain ⟨front, hfront, hts⟩ := ih
    have hcs : cs = w ++ (front ++ rest) := by rw [← hfront, hw.append_drop]
    rw [hcs] at hw
    refine ⟨w ++ front, by rw [hcs, List.append_assoc], ?_⟩
    rw [hw.truncate.tokensFrom_eq, if_pos hskipped, hts]
  | @token offset cs w rest p kind ts hw hskipped hkind hrest ih =>
    obtain ⟨front, hfront, hts⟩ := ih
    have hcs : cs = w ++ (front ++ rest) := by rw [← hfront, hw.append_drop]
    rw [hcs] at hw
    refine ⟨w ++ front, by rw [hcs, List.append_assoc], ?_⟩
    have hgives : p.rule.kind w = .ok kind := (hw.kind_eq_iff hskipped).2 hkind
    rw [hw.truncate.tokensFrom_eq, if_neg (Bool.eq_false_iff.1 hskipped), hgives, hts]
    rfl

theorem Divides.suffix {offset : Nat} {cs rest : List Char} {ts : List Token}
    (h : Divides offset cs ts rest) : rest <:+ cs := by
  obtain ⟨front, hcs, -⟩ := h.tokensFrom_front
  exact ⟨front, hcs.symm⟩

/-- Where the division cannot go on, the longest word is no blank or comment and has no value. -/
theorem Stuck.no_token {offset : Nat} {cs w : List Char} {e : LexError} {p : Pattern}
    (h : Stuck offset cs e) (hw : p.Munches w cs) :
    p.isSkipped = false ∧ ∀ kind, ¬p.Decodes w kind := by
  cases h with
  | unmatched hnone => exact absurd hw.front (hnone p w hw.matched)
  | @overflow p' w' _ hw' hoverflow =>
    obtain ⟨rfl, rfl⟩ := hw'.unique hw
    have hskipped : p'.isSkipped = false := by
      cases p' <;> first | rfl | exact hoverflow.elim
    refine ⟨hskipped, fun kind hkind => ?_⟩
    have herror : p'.rule.kind w' = .error e := (hw.kind_eq_iff hskipped).2 hoverflow
    have hok : p'.rule.kind w' = .ok kind := (hw.kind_eq_iff hskipped).2 hkind
    cases herror.symm.trans hok

theorem Divides.suffix_of_stuck {offset offset' at' : Nat} {cs rest rest' : List Char}
    {ts ts' : List Token} {e : LexError} (h' : Divides offset' cs ts' rest')
    (h : Divides offset cs ts rest) (hstuck : Stuck at' rest e) : rest <:+ rest' := by
  induction h' generalizing offset ts with
  | here => exact h.suffix
  | skip hw' hskipped' hrest' ih =>
    cases h with
    | here => exact absurd hskipped' (Bool.eq_false_iff.1 (hstuck.no_token hw').1)
    | skip hw hskipped hrest =>
      obtain ⟨rfl, rfl⟩ := hw.unique hw'
      exact ih hrest
    | token hw hskipped hkind hrest =>
      obtain ⟨rfl, rfl⟩ := hw.unique hw'
      exact absurd hskipped' (Bool.eq_false_iff.1 hskipped)
  | token hw' hskipped' hkind' hrest' ih =>
    cases h with
    | here => exact absurd hkind' ((hstuck.no_token hw').2 _)
    | skip hw hskipped hrest =>
      obtain ⟨rfl, rfl⟩ := hw.unique hw'
      exact absurd hskipped (Bool.eq_false_iff.1 hskipped')
    | token hw hskipped hkind hrest =>
      obtain ⟨rfl, rfl⟩ := hw.unique hw'
      exact ih hrest

theorem Divides.stuck_unique {offset at' : Nat} {cs rest rest' : List Char} {ts ts' : List Token}
    {at'' : Nat} {e e' : LexError} (h : Divides offset cs ts rest) (hstuck : Stuck at' rest e)
    (h' : Divides offset cs ts' rest') (hstuck' : Stuck at'' rest' e') : rest' = rest := by
  have hle := h'.suffix_of_stuck h hstuck
  have hge := h.suffix_of_stuck h' hstuck'
  exact hge.eq_of_length (Nat.le_antisymm hge.length_le hle.length_le)

def gaps : Language Char := (Pattern.blank.language + Pattern.comment.language)∗

/-- A text that consists of tokens with blanks and comments before, between and behind them. -/
def Laid : Nat → List Char → List Token → Prop
  | _, cs, [] => cs ∈ gaps
  | offset, cs, t :: ts => ∃ gap rest, gap ∈ gaps ∧ cs = gap ++ (t.lexeme.toList ++ rest) ∧
      t.start = offset + byteLength gap ∧ t.stop = t.start + byteLength t.lexeme.toList ∧
      Laid t.stop rest ts

/-- A token of a text: its own text is not empty and is what the text has between its offsets, the
longest word there that any rule matches, and its kind is what that word stands for. -/
def Token.Munched (source : List Char) (t : Token) : Prop :=
  ∃ (p : Pattern) (front rest : List Char), source = front ++ (t.lexeme.toList ++ rest) ∧
    t.start = byteLength front ∧ t.stop = byteLength (front ++ t.lexeme.toList) ∧
    t.start < t.stop ∧ p.isSkipped = false ∧
    p.Munches t.lexeme.toList (t.lexeme.toList ++ rest) ∧ p.Decodes t.lexeme.toList t.kind

theorem byteLength_pos {cs : List Char} (h : cs ≠ []) : 0 < byteLength cs := by
  obtain ⟨c, cs, rfl⟩ := List.exists_cons_of_ne_nil h
  rw [Text.byteLength_cons]
  exact Nat.lt_of_lt_of_le c.utf8Size_pos (Nat.le_add_right _ _)

theorem append_mem_gaps {p : Pattern} {w gap : List Char} (hskipped : p.isSkipped = true)
    (hw : w ∈ p.language) (hgap : gap ∈ gaps) : w ++ gap ∈ gaps := by
  have hone : w ∈ Pattern.blank.language + Pattern.comment.language := by
    rw [Language.mem_add]
    cases p with
    | blank => exact Or.inl hw
    | comment => exact Or.inr hw
    | _ => cases hskipped
  exact Set.mem_of_mem_of_subset (Language.append_mem_mul hone hgap)
    (mul_kstar_le_kstar (a := Pattern.blank.language + Pattern.comment.language))

theorem Laid.skip {offset : Nat} {cs w : List Char} {p : Pattern} {ts : List Token}
    (hskipped : p.isSkipped = true) (hw : w ∈ p.language)
    (h : Laid (offset + byteLength w) cs ts) : Laid offset (w ++ cs) ts := by
  cases ts with
  | nil => exact append_mem_gaps hskipped hw h
  | cons t ts =>
    obtain ⟨gap, rest, hgap, rfl, hstart, hstop, hrest⟩ := h
    refine ⟨w ++ gap, rest, append_mem_gaps hskipped hw hgap, by rw [List.append_assoc], ?_, hstop,
      hrest⟩
    rw [hstart, Text.byteLength_append, Nat.add_assoc]

theorem Divides.laid {offset : Nat} {cs rest : List Char} {ts : List Token}
    (h : Divides offset cs ts rest) : rest = [] → Laid offset cs ts := by
  induction h with
  | here =>
    rintro rfl
    exact Language.nil_mem_kstar _
  | skip hw hskipped hrest ih =>
    intro hnil
    rw [← hw.append_drop]
    exact Laid.skip hskipped hw.matched (ih hnil)
  | token hw hskipped hkind hrest ih =>
    intro hnil
    refine ⟨[], _, Language.nil_mem_kstar _, ?_, rfl, ?_, ih hnil⟩
    · rw [List.nil_append, String.toList_ofList, hw.append_drop]
    · rw [String.toList_ofList]

theorem Divides.munched {offset : Nat} {cs rest : List Char} {ts : List Token}
    (h : Divides offset cs ts rest) (front : List Char) (hoffset : offset = byteLength front) :
    ∀ t ∈ ts, t.Munched (front ++ cs) := by
  induction h generalizing front with
  | here => exact fun t ht => nomatch ht
  | @skip offset cs w _ p ts hw hskipped hrest ih =>
    have hlater := ih (front ++ w) (by rw [hoffset, Text.byteLength_append])
    rwa [List.append_assoc, hw.append_drop] at hlater
  | @token offset cs w _ p kind ts hw hskipped hkind hrest ih =>
    have hlater := ih (front ++ w) (by rw [hoffset, Text.byteLength_append])
    rw [List.append_assoc, hw.append_drop] at hlater
    refine List.forall_mem_cons.2 ⟨?_, hlater⟩
    refine ⟨p, front, cs.drop w.length, ?_⟩
    simp only [String.toList_ofList]
    have hpos := byteLength_pos (Pattern.ne_nil_of_mem hw.matched)
    have hsplit := hw.append_drop
    refine ⟨by rw [hsplit], hoffset, ?_, by omega, hskipped, by rwa [hsplit], hkind⟩
    rw [hoffset, Text.byteLength_append]

theorem Divides.ordered {offset : Nat} {cs rest : List Char} {ts : List Token}
    (h : Divides offset cs ts rest) : (∀ t ∈ ts, offset ≤ t.start ∧ t.start < t.stop) ∧
      ts.Pairwise fun t t' => t.stop ≤ t'.start := by
  induction h with
  | here => exact ⟨fun t ht => (nomatch ht), List.Pairwise.nil⟩
  | skip hw hskipped hrest ih =>
    refine ⟨fun t ht => ?_, ih.2⟩
    obtain ⟨hge, hlt⟩ := ih.1 t ht
    exact ⟨by omega, hlt⟩
  | token hw hskipped hkind hrest ih =>
    have hpos := byteLength_pos (Pattern.ne_nil_of_mem hw.matched)
    constructor
    · refine List.forall_mem_cons.2 ⟨⟨Nat.le_refl _, Nat.lt_add_of_pos_right hpos⟩, fun t ht => ?_⟩
      obtain ⟨hge, hlt⟩ := ih.1 t ht
      exact ⟨by omega, hlt⟩
    · exact List.pairwise_cons.2 ⟨fun t ht => (ih.1 t ht).1, ih.2⟩

theorem tokens_ordered {source : String} {ts : List Token} (h : tokens source = .ok ts) :
    (∀ t ∈ ts, t.start < t.stop) ∧ ts.Pairwise fun t t' => t.stop ≤ t'.start := by
  have hmunched := munched_tokensFrom 0 source.toList
  rw [show tokensFrom 0 source.toList = .ok ts from h] at hmunched
  cases hmunched with
  | whole hdivides =>
    obtain ⟨hspans, hordered⟩ := hdivides.ordered
    exact ⟨fun t ht => (hspans t ht).2, hordered⟩

/-- The lexer is maximal munch over the declared rules. If it succeeds, the text consists of the
tokens with nothing but blanks and comments around them, and each token is the longest word that a
rule matches where it stands. If it fails, then at the one place that a division reaches and cannot
pass, and the text before that place is a text with just the tokens found so far. -/
theorem tokens_maximal_munch (source : String) :
    match tokens source with
    | .ok ts => Divides 0 source.toList ts [] ∧ Laid 0 source.toList ts ∧
        (∀ t ∈ ts, t.Munched source.toList) ∧ ts.Pairwise fun t t' => t.stop ≤ t'.start
    | .error e => ∃ ts front rest, source.toList = front ++ rest ∧
        Divides 0 source.toList ts rest ∧ Stuck (byteLength front) rest e ∧
        (∀ ts' rest' offset e', Divides 0 source.toList ts' rest' → Stuck offset rest' e' →
          rest' = rest) ∧
        tokens (String.ofList front) = .ok ts := by
  have hmunched := munched_tokensFrom 0 source.toList
  unfold tokens
  cases hresult : tokensFrom 0 source.toList with
  | ok ts =>
    rw [hresult] at hmunched
    cases hmunched with
    | whole h => exact ⟨h, h.laid rfl, h.munched [] rfl, h.ordered.2⟩
  | error e =>
    rw [hresult] at hmunched
    cases hmunched with
    | @stuck ts front rest _ hcs h hstuck =>
      rw [Nat.zero_add] at hstuck
      refine ⟨ts, front, rest, hcs, h, hstuck, ?_, ?_⟩
      · exact fun ts' rest' offset e' h' hstuck' => h.stuck_unique hstuck h' hstuck'
      · obtain ⟨front', hcs', hts⟩ := h.tokensFrom_front
        have hfront : front' = front := List.append_cancel_right (hcs'.symm.trans hcs)
        rw [String.toList_ofList, ← hfront]
        exact hts

end Asl
