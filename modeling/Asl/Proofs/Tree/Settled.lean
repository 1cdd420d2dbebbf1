import Asl.Proofs.Tree.Phrases
import Asl.Proofs.Tree.Unbounded

/-!
# Where reading is settled

A parser never looks behind the token that settles what it does. A success is settled by the tokens
passed and the one that comes next; a failure by the tokens before the one to blame and that one.
And the tokens before the one to blame can always be completed to a phrase, since a parser goes on
only where the grammar does.

Two tokens are looked at only where the first is a name, which is passed in any case. Two faults are
seen when the token to blame has been passed: a size that is not positive, and the parenthesis that
closes an empty maximum.
-/
namespace Asl.Parser

open Attempt (fail)

variable {α β : Type} {c d : Cursor} {n : Nat}

/-- Every list of kinds in a language is the front of one in another. -/
def Completes (L L' : List TokenKind → Prop) : Prop := ∀ ks, L ks → ∃ ks', L' (ks ++ ks')

theorem Completes.of_imp {L L' : List TokenKind → Prop} (h : ∀ ks, L ks → L' ks) :
    Completes L L' := fun ks hks => ⟨[], by rw [List.append_nil]; exact h ks hks⟩

theorem Completes.refl {L : List TokenKind → Prop} : Completes L L := .of_imp fun _ h => h

/-- What a parser does is settled by the tokens it passes, at least `n`, and the one behind them; or
by those before the one to blame, which are the front of a list in a language, and that one. -/
structure Settles (n : Nat) (c : Cursor) (m : Parser α) (L : List TokenKind → Prop)
    (P : α → List TokenKind → Prop) : Prop where
  given : ∀ a d, m.run c = (.ok a, d) → ∃ seen, c.rest = seen ++ d.rest ∧ n ≤ seen.length ∧
    P a (seen.map Token.kind) ∧ ∀ rest, rest.head? = d.rest.head? →
      m.run { c with rest := seen ++ rest } = (.ok a, { d with rest := rest })
  failed : ∀ e d, m.run c = (.error e, d) → ∃ seen later, c.rest = seen ++ later ∧
    n ≤ seen.length ∧ (∃ ks, L (seen.map Token.kind ++ ks)) ∧
      later.length ≤ d.rest.length + 1 ∧ ∀ rest, rest.head? = later.head? →
        (m.run { c with rest := seen ++ rest }).1 = .error e

def Settled (L : List TokenKind → Prop) (c : Cursor) (m : Parser α) : Prop :=
  Settles 0 c m L fun _ ks => L ks

/-- A parser of the lists of a language wherever at most so many tokens are left. -/
def SettledWithin (n : Nat) (L : List TokenKind → Prop) (m : Parser α) : Prop :=
  ∀ c : Cursor, c.rest.length ≤ n → Settled L c m

theorem head?_append_congr {seen rest rest' : List Token} (h : rest.head? = rest'.head?) :
    (seen ++ rest).head? = (seen ++ rest').head? := by
  rw [List.head?_append, List.head?_append, h]

theorem Cursor.length_of_cons {k : TokenKind} (h : c.kinds = k :: d.kinds) :
    d.rest.length + 1 = c.rest.length := by
  have hlength := congrArg List.length h
  rw [Cursor.kinds, Cursor.kinds, List.length_cons, List.length_map, List.length_map] at hlength
  exact hlength.symm

theorem Cursor.length_of_kinds {ks : List TokenKind} (h : c.kinds = ks ++ d.kinds) :
    ks.length + d.rest.length = c.rest.length := by
  have hlength := congrArg List.length h
  rw [Cursor.kinds, Cursor.kinds, List.length_append, List.length_map, List.length_map] at hlength
  exact hlength.symm

section

variable {m : Parser α} {f : α → Parser β} {L L' : List TokenKind → Prop}
  {P : α → List TokenKind → Prop} {Q : β → List TokenKind → Prop}

theorem Settles.mono {n' : Nat} {P' : α → List TokenKind → Prop} (hm : Settles n c m L P)
    (hn : n' ≤ n) (hL : Completes L L') (hP : ∀ a ks, P a ks → P' a ks) :
    Settles n' c m L' P' where
  given a d hrun := by
    obtain ⟨seen, hrest, hlength, hvalue, hsame⟩ := hm.given a d hrun
    exact ⟨seen, hrest, Nat.le_trans hn hlength, hP a _ hvalue, hsame⟩
  failed e d hrun := by
    obtain ⟨seen, later, hrest, hlength, ⟨ks, hks⟩, hpassed, hsame⟩ := hm.failed e d hrun
    obtain ⟨ks', hks'⟩ := hL _ hks
    rw [List.append_assoc] at hks'
    exact ⟨seen, later, hrest, Nat.le_trans hn hlength, ⟨_, hks'⟩, hpassed, hsame⟩

theorem Settles.weaken (hm : Settles n c m L P) : Settles 0 c m L P :=
  hm.mono (Nat.zero_le n) .refl fun _ _ h => h

theorem Settles.bind (hm : Settles n c m L P) (hL : Completes L L')
    (hf : ∀ a ks d, m.run c = (.ok a, d) → c.kinds = ks ++ d.kinds → P a ks →
      Settles 0 d (f a) (fun ks' => L' (ks ++ ks')) fun b ks' => Q b (ks ++ ks')) :
    Settles n c (m >>= f) L' Q where
  given b d hrun := by
    obtain ⟨a, c₁, hrun₁, hrun₂⟩ := Attempt.run_bind_eq_ok.1 hrun
    obtain ⟨seen, hrest, hlength, ha, hsame⟩ := hm.given a c₁ hrun₁
    have hkinds : c.kinds = seen.map Token.kind ++ c₁.kinds := by
      rw [Cursor.kinds, hrest, List.map_append, Cursor.kinds]
    obtain ⟨seen', hrest', -, hb, hsame'⟩ := (hf a _ c₁ hrun₁ hkinds ha).given b d hrun₂
    refine ⟨seen ++ seen', ?_, ?_, ?_, fun rest hhead => ?_⟩
    · rw [hrest, hrest', List.append_assoc]
    · rw [List.length_append]
      exact Nat.le_trans hlength (Nat.le_add_right _ _)
    · rw [List.map_append]
      exact hb
    · rw [List.append_assoc]
      refine Attempt.run_bind_eq_ok.2 ⟨a, _, hsame (seen' ++ rest) ?_, hsame' rest hhead⟩
      rw [hrest']
      exact head?_append_congr hhead
  failed e d hrun := by
    rcases Attempt.run_bind_eq_error.1 hrun with hrun₁ | ⟨a, c₁, hrun₁, hrun₂⟩
    · obtain ⟨seen, later, hrest, hlength, ⟨ks, hks⟩, hpassed, hsame⟩ := hm.failed e d hrun₁
      obtain ⟨ks', hks'⟩ := hL _ hks
      rw [List.append_assoc] at hks'
      refine ⟨seen, later, hrest, hlength, ⟨_, hks'⟩, hpassed, fun rest hhead => ?_⟩
      have hfails := hsame rest hhead
      rw [Attempt.run_bind]
      rcases hrun' : m.run { c with rest := seen ++ rest } with ⟨e' | a, d'⟩
      · rw [hrun'] at hfails
        cases hfails
        rfl
      · rw [hrun'] at hfails
        cases hfails
    · obtain ⟨seen, hrest, hlength, ha, hsame⟩ := hm.given a c₁ hrun₁
      have hkinds : c.kinds = seen.map Token.kind ++ c₁.kinds := by
        rw [Cursor.kinds, hrest, List.map_append, Cursor.kinds]
      obtain ⟨seen', later, hrest', -, ⟨ks, hks⟩, hpassed, hsame'⟩ :=
        (hf a _ c₁ hrun₁ hkinds ha).failed e d hrun₂
      refine ⟨seen ++ seen', later, ?_, ?_, ⟨ks, ?_⟩, hpassed, fun rest hhead => ?_⟩
      · rw [hrest, hrest', List.append_assoc]
      · rw [List.length_append]
        exact Nat.le_trans hlength (Nat.le_add_right _ _)
      · rw [List.map_append, List.append_assoc]
        exact hks
      · have hfront : m.run { c with rest := seen ++ (seen' ++ rest) } =
            (.ok a, { c₁ with rest := seen' ++ rest }) := by
          refine hsame (seen' ++ rest) ?_
          rw [hrest']
          exact head?_append_congr hhead
        rw [List.append_assoc, Attempt.run_bind, hfront]
        exact hsame' rest hhead

theorem settles_pure {a : α} (h : P a []) : Settles 0 c (pure a) L P where
  given a' d hrun := by
    cases hrun
    exact ⟨[], rfl, Nat.le_refl 0, h, fun rest _ => rfl⟩
  failed e d hrun := by cases hrun

theorem settles_fail {e : ParseError} (h : ∃ ks, L ks) : Settles 0 c (fail e) L P where
  given a d hrun := by cases hrun
  failed e' d hrun := by
    cases hrun
    exact ⟨[], c.rest, rfl, Nat.le_refl 0, h, Nat.le_succ _, fun rest _ => rfl⟩

theorem settles_fail_second {e : ParseError} {k : TokenKind} (hk : c.kinds.head? = some k)
    (h : ∃ ks, L (k :: ks)) : Settles 1 c (fail e) L P where
  given a d hrun := by cases hrun
  failed e' d hrun := by
    cases hrun
    obtain ⟨ts, hts⟩ := List.head?_eq_some_iff.1 hk
    obtain ⟨t, ts, hrest, ht, -⟩ := List.map_eq_cons_iff.1 hts
    subst ht
    refine ⟨[t], ts, hrest, Nat.le_refl 1, h, ?_, fun rest _ => rfl⟩
    rw [hrest, List.length_cons]
    omega

/-- A parser is settled where another is that does the same on all lists that agree so far. -/
theorem Settles.of_run {m' : Parser α} (h : Settles n d m' L P) (hd : d.rest = c.rest)
    (hc : m.run c = m'.run d)
    (hrun : ∀ seen later rest, c.rest = seen ++ later → n ≤ seen.length →
      rest.head? = later.head? →
        m.run { c with rest := seen ++ rest } = m'.run { d with rest := seen ++ rest }) :
    Settles n c m L P where
  given a c' h' := by
    obtain ⟨seen, hrest, hlength, ha, hsame⟩ := h.given a c' (hc ▸ h')
    rw [hd] at hrest
    refine ⟨seen, hrest, hlength, ha, fun rest hhead => ?_⟩
    rw [hrun seen _ rest hrest hlength hhead]
    exact hsame rest hhead
  failed e c' h' := by
    obtain ⟨seen, later, hrest, hlength, hks, hpassed, hsame⟩ := h.failed e c' (hc ▸ h')
    rw [hd] at hrest
    refine ⟨seen, later, hrest, hlength, hks, hpassed, fun rest hhead => ?_⟩
    rw [hrun seen _ rest hrest hlength hhead]
    exact hsame rest hhead

theorem settles_peek? {f : Option TokenKind → Parser β}
    (h : Settles n c (f c.kinds.head?) L Q) : Settles n c (peek? >>= f) L Q := by
  rw [Cursor.kinds, List.head?_map] at h
  refine h.of_run rfl rfl fun seen later rest hrest _ hhead => ?_
  have hlook : (seen ++ rest).head? = c.rest.head? := by
    rw [hrest]
    exact head?_append_congr hhead
  rw [← hlook]
  rfl

theorem settles_peekSecond? {f : Option TokenKind → Parser β}
    (h : ∀ k, Settles 1 c (f k) L Q) : Settles 1 c (peekSecond? >>= f) L Q := by
  have h := h ((c.rest.drop 1).head?.map Token.kind)
  refine h.of_run rfl rfl fun seen later rest hrest hlength hhead => ?_
  have hlook : ((seen ++ rest).drop 1).head? = (c.rest.drop 1).head? := by
    rw [hrest, List.drop_append_of_le_length hlength, List.drop_append_of_le_length hlength]
    exact head?_append_congr hhead
  rw [← hlook]
  rfl

theorem peek_bind_run {f : Token → Parser β} {t : Token} (ht : c.rest.head? = some t) :
    (peek >>= f).run c = (f t).run c := by
  obtain ⟨ts, hts⟩ := List.head?_eq_some_iff.1 ht
  rw [Attempt.run_bind, peek_run_cons hts]

theorem settles_peek_of_head {f : Token → Parser β} {t : Token} (ht : c.rest.head? = some t)
    (h : Settles n c (f t) L Q) : Settles n c (peek >>= f) L Q := by
  refine h.of_run rfl (peek_bind_run ht) fun seen later rest hrest _ hhead => peek_bind_run ?_
  rw [← ht, hrest]
  exact head?_append_congr hhead

theorem settles_peek {f : Token → Parser β} (hL : ∃ ks, L ks)
    (h : ∀ t, c.rest.head? = some t → Settles 0 c (f t) L Q) : Settles 0 c (peek >>= f) L Q := by
  cases hrest : c.rest with
  | nil =>
    have hrun : (peek >>= f).run c = (.error .unexpectedEnd, c) := by
      rw [Attempt.run_bind, peek_run_nil hrest]
    refine (settles_fail (e := .unexpectedEnd) hL).of_run rfl hrun
      fun seen later rest hsplit _ hhead => ?_
    obtain ⟨rfl, rfl⟩ := List.append_eq_nil_iff.1 (hsplit.symm.trans hrest)
    obtain rfl := List.head?_eq_none_iff.1 hhead
    rw [Attempt.run_bind, peek_run_nil rfl]
    rfl
  | cons t ts =>
    have ht : c.rest.head? = some t := by rw [hrest, List.head?_cons]
    exact settles_peek_of_head ht (h t ht)

theorem settles_advance_past {f : Unit → Parser β} {k : TokenKind} (hk : c.kinds.head? = some k)
    (hf : ∀ d, c.kinds = k :: d.kinds →
      Settles n d (f ()) (fun ks => L (k :: ks)) fun b ks => Q b (k :: ks)) :
    Settles (n + 1) c (advance >>= f) L Q := by
  obtain ⟨ts, hts⟩ := List.head?_eq_some_iff.1 hk
  obtain ⟨t, ts, hrest, rfl, -⟩ := List.map_eq_cons_iff.1 hts
  have hrun : ∀ ts, (advance >>= f).run { c with rest := t :: ts } =
      (f ()).run { c with rest := ts, lastStop := t.stop } := by
    intro ts
    rw [Attempt.run_bind, advance_run_cons rfl]
  have hc : (advance >>= f).run c = (f ()).run { c with rest := ts, lastStop := t.stop } := by
    rw [← hrun ts, ← hrest]
  have h := hf { c with rest := ts, lastStop := t.stop }
    (by rw [Cursor.kinds, hrest, List.map_cons, Cursor.kinds])
  constructor
  · intro b d hrun'
    obtain ⟨seen, hsplit, hlength, hb, hsame⟩ := h.given b d (hc ▸ hrun')
    refine ⟨t :: seen, ?_, Nat.succ_le_succ hlength, hb, fun rest hhead => ?_⟩
    · rw [hrest, List.cons_append, ← hsplit]
    · rw [List.cons_append, hrun]
      exact hsame rest hhead
  · intro e d hrun'
    obtain ⟨seen, later, hsplit, hlength, hks, hpassed, hsame⟩ := h.failed e d (hc ▸ hrun')
    refine ⟨t :: seen, later, ?_, Nat.succ_le_succ hlength, hks, hpassed, fun rest hhead => ?_⟩
    · rw [hrest, List.cons_append, ← hsplit]
    · rw [List.cons_append, hrun]
      exact hsame rest hhead

theorem settles_advance {f : Unit → Parser β} {k : TokenKind} (hk : c.kinds.head? = some k)
    (hf : ∀ d, c.kinds = k :: d.kinds →
      Settles 0 d (f ()) (fun ks => L (k :: ks)) fun b ks => Q b (k :: ks)) :
    Settles 0 c (advance >>= f) L Q := (settles_advance_past hk hf).weaken

/-- A failure that is to be blamed on the token that has just been passed. -/
theorem settles_advance_fail {e : ParseError} {k : TokenKind} (hk : c.kinds.head? = some k)
    (hL : ∃ ks, L ks) : Settles 0 c (advance >>= fun _ => fail e) L P := by
  obtain ⟨ts, hts⟩ := List.head?_eq_some_iff.1 hk
  obtain ⟨t, ts, hrest, -, -⟩ := List.map_eq_cons_iff.1 hts
  have hrun : ∀ {c : Cursor} {ts}, c.rest = t :: ts → (advance >>= fun _ => fail e).run c =
      ((.error e, { c with rest := ts, lastStop := t.stop }) : Except ParseError α × Cursor) := by
    intro c ts hc
    rw [Attempt.run_bind, advance_run_cons hc]
    rfl
  constructor
  · intro a d hrun'
    rw [hrun hrest] at hrun'
    cases hrun'
  · intro e' d hrun'
    rw [hrun hrest] at hrun'
    cases hrun'
    refine ⟨[], c.rest, rfl, Nat.le_refl 0, hL, ?_, fun rest hhead => ?_⟩
    · exact Nat.le_of_eq (congrArg List.length hrest)
    · rw [hrest, List.head?_cons] at hhead
      obtain ⟨ts', rfl⟩ := List.head?_eq_some_iff.1 hhead
      rw [hrun rfl]

theorem settles_expect {f : Unit → Parser β} {k : TokenKind} (hL : ∃ ks, L (k :: ks))
    (hf : ∀ d, c.kinds = k :: d.kinds →
      Settles 0 d (f ()) (fun ks => L (k :: ks)) fun b ks => Q b (k :: ks)) :
    Settles 0 c (expect k >>= f) L Q := by
  rw [expect, bind_assoc]
  refine settles_peek? ?_
  split
  · rename_i hk
    exact settles_advance hk hf
  · obtain ⟨ks, hks⟩ := hL
    exact settles_fail ⟨k :: ks, hks⟩

theorem settles_freshId {f : NodeId → Parser β}
    (hf : ∀ id d, d.rest = c.rest → Settles n d (f id) L Q) :
    Settles n c (freshId >>= f) L Q :=
  (hf c.nextId { c with nextId := c.nextId + 1 } rfl).of_run rfl rfl fun _ _ _ _ _ _ => rfl

theorem settles_mark {start : Nat} {f : Mark → Parser β}
    (hf : ∀ mark d, d.rest = c.rest → Settles n d (f mark) L Q) :
    Settles n c (mark start >>= f) L Q :=
  (hf ⟨c.nextId, start, c.lastStop⟩ { c with nextId := c.nextId + 1 } rfl).of_run rfl rfl
    fun _ _ _ _ _ _ => rfl

theorem settles_lastStop {f : Nat → Parser β} (hf : ∀ stop, Settles n c (f stop) L Q) :
    Settles n c (lastStop >>= f) L Q :=
  (hf c.lastStop).of_run rfl rfl fun _ _ _ _ _ _ => rfl

end

/-- What a step keeps true of the value and of all kinds so far, a loop keeps true. -/
theorem settles_loop {test : TokenKind → Option β} {step : β → α → Parser α} {loop : α → Parser α}
    {L : List TokenKind → Prop} {P : α → List TokenKind → Prop} (hloop : Loops test step loop)
    (hproceeds : Proceeds test step)
    (hstep : ∀ d b a ks, d.rest.length ≤ n → d.kinds.head?.bind test = some b → P a ks →
      Settles 0 d (step b a) (fun ks' => L (ks ++ ks')) fun a' ks' => P a' (ks ++ ks'))
    {a : α} {ks : List TokenKind} (hc : c.rest.length ≤ n) (ha : P a ks) :
    Settles 0 c (loop a) (fun ks' => L (ks ++ ks')) fun a' ks' => P a' (ks ++ ks') := by
  induction hlength : c.rest.length using Nat.strongRecOn generalizing c a ks with
  | ind length ih =>
    rw [hloop]
    refine settles_peek? ?_
    split
    · exact settles_pure (by rwa [List.append_nil])
    · rename_i b hb
      refine (hstep c b a ks hc hb ha).bind .refl fun a' ks' d hrun hkinds ha' => ?_
      have hlt := hproceeds c b a a' d (by rwa [Cursor.kinds, List.head?_map] at hb) hrun
      refine (ih d.rest.length (by omega) (by omega) ha' rfl).mono (Nat.le_refl 0)
        (.of_imp fun ks'' h => ?_) fun a'' ks'' h => ?_
      · rwa [← List.append_assoc]
      · rwa [← List.append_assoc]

theorem settles_collect (i : Item α) {I S : List TokenKind → Prop}
    (hmore : ∀ ks ks', I ks → S ks' → S (ks ++ ks')) (hsome : ∃ ks, S ks)
    (hitem : ∀ d b items, d.rest.length ≤ n → d.kinds.head?.bind i.follows = some b →
      Settles 0 d (i.step items) I fun _ ks => I ks) (hc : c.rest.length ≤ n) :
    Settles 0 c (whileNext i.follows (fun _ => i.step) []) S
      fun _ ks => ∀ ks', S ks' → S (ks ++ ks') := by
  obtain ⟨last, hlast⟩ := hsome
  have hstart : ∀ ks', S ks' → S ([] ++ ks') := fun _ h => h
  refine settles_loop (P := fun _ ks => ∀ ks', S ks' → S (ks ++ ks')) i.loops i.proceeds
    (fun d b items ks hd hb hks => ?_) hc hstart
  refine (hitem d b items hd hb).mono (Nat.le_refl 0)
    (fun ks' h => ⟨last, hks _ (hmore _ _ h hlast)⟩) fun items' ks' h ks'' hks'' => ?_
  rw [List.append_assoc]
  exact hks _ (hmore _ _ h hks'')

theorem settles_step {i : Item α} (hled : i.isLed = false) {I : List TokenKind → Prop}
    (h : Settled I c i.parser) (items : List α) :
    Settles 0 c (i.step items) I fun _ ks => I ks := by
  unfold Item.step
  rw [hled]
  refine h.bind .refl fun a ks d _ _ h => settles_pure ?_
  rwa [List.append_nil]

section

variable {I S : List TokenKind → Prop}

theorem settles_separated (m : Member α) (hone : ∀ ks, I ks → S ks)
    (hmore : ∀ ks ks', I ks → S ks' → S (ks ++ .symbol .comma :: ks'))
    (hitem : SettledWithin n I m.parser) (hc : c.rest.length ≤ n) :
    Settles 0 c (separated m.parser) S fun as ks => as ≠ [] ∧ S ks := by
  refine (hitem c hc).bind (.of_imp hone) fun first ks d hrun hkinds h => ?_
  have hd := Cursor.length_of_kinds hkinds
  refine (settles_loop (P := fun as ks => as ≠ [] ∧ S ks ∧
    ∀ ks', S ks' → S (ks ++ .symbol .comma :: ks')) (Item.member m).loops (Item.member m).proceeds
    (fun d _ as ks hd hb h => ?_) (n := n) (by omega)
    ⟨List.cons_ne_nil _ _, hone ks h, fun ks' => hmore ks ks' h⟩).mono (Nat.le_refl 0)
    .refl fun as ks h => ⟨h.1, h.2.1⟩
  obtain ⟨hne, hks, hjoin⟩ := h
  refine settles_advance (head?_of_test hb) fun d' hd' => ?_
  have hlength := Cursor.length_of_cons hd'
  refine (hitem d' (by omega)).bind
    (fun ks' h => ⟨[], by rw [List.append_nil]; exact hjoin _ (hone _ h)⟩)
    fun a ks' d'' _ _ h => settles_pure ?_
  rw [List.append_nil]
  refine ⟨by simp, hjoin _ (hone _ h), fun ks'' hks'' => ?_⟩
  rw [List.append_assoc]
  exact hjoin _ (hmore _ _ h hks'')

theorem settles_listed (m : Member α) (hone : ∀ ks, I ks → S ks)
    (hmore : ∀ ks ks', I ks → S ks' → S (ks ++ .symbol .comma :: ks'))
    (hitem : SettledWithin n I m.parser) (hc : c.rest.length ≤ n) :
    Settles 0 c (listed m.parser) S fun _ ks => ks = [] ∨ S ks := by
  refine settles_peek? ?_
  split
  · exact settles_pure (.inl rfl)
  · exact (settles_separated m hone hmore hitem hc).mono (Nat.le_refl 0)
      .refl fun as ks h => .inr h.2

end

end Asl.Parser
