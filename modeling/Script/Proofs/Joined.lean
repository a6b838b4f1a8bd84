import Script.Proofs.Complete.Statement
import Script.Proofs.Moved.Front

/-!
Programs on lines after each other. The line break between two sources ends the last statement of
the first one, and nothing in the second one goes on with it, so the two are read one after the
other.
-/
namespace Script

open Chars

variable {rules : Rules} {s : Surroundings} {t u : Token} {ts us : List Token}

/-- No statement begins with an `else`. -/
theorem Statement.Written.not_else {st : Statement} (h : st.Written rules s ts) :
    ∀ t ∈ ts.head?, t.keyword? ≠ some .elseWord := by
  have hname : ∀ {n : Name} {ts us : List Token}, n.WrittenOperand ts →
      ∀ t ∈ (ts ++ us).head?, t.keyword? ≠ some .elseWord := by
    intro n ts us h t ht hk
    obtain ⟨u, vs, rfl, -⟩ := h.name.begin
    obtain rfl := Option.some.inj ht
    have := (h.free u rfl _ hk).2
    cases this
  have hword : ∀ {w : Keyword} {t : Token} {ts : List Token}, t.keyword? = some w →
      w ≠ .elseWord → ∀ u ∈ (t :: ts).head?, u.keyword? ≠ some .elseWord := by
    intro w t ts ht hw u hu hk
    obtain rfl := Option.some.inj hu
    exact hw (Option.some.inj (ht.symm.trans hk))
  cases h with
  | mk hk =>
    cases hk with
    | modDecl ht => exact hword ht (by decide)
    | useDecl hd => cases hd with | mk ht => exact hword ht (by decide)
    | importDecl hd =>
      cases hd with
      | plain ht => exact hword ht (by decide)
      | call ht => exact hword ht (by decide)
    | varDecl hd =>
      cases hd with
      | @mk _ _ _ _ _ binding _ _ _ ht => exact hword ht (by cases binding <;> decide)
    | fnDecl hd => cases hd with | mk ht => exact hword ht (by decide)
    | nodeDecl hd => cases hd with | mk ht => exact hword ht (by decide)
    | assign hn => exact hname hn
    | ifStmt hs => cases hs with | mk ht => exact hword ht (by decide)
    | forStmt hs => cases hs with | mk ht => exact hword ht (by decide)
    | whenStmt hs => cases hs with | mk ht => exact hword ht (by decide)
    | uiBlock ht => exact hword ht (by decide)
    | styleBlock ht => exact hword ht (by decide)
    | typeDecl hd => cases hd with | mk ht => exact hword ht (by decide)
    | enumDecl hd => cases hd with | mk ht => exact hword ht (by decide)
    | breakStmt ht => exact hword ht (by decide)
    | expr he =>
      intro t ht hk
      have := he.opens.word t ht _ hk
      simp [Keyword.isSoft, Parser.literalWord?] at this

theorem not_atElse_of_word (h : t.keyword? ≠ some .elseWord) : ¬ AtElse (t :: ts) := by
  rintro ⟨u, v, vs, hcons, hu, -⟩
  obtain ⟨rfl, -⟩ := List.cons.inj hcons
  exact h hu

/-- What follows a token that is no `else` has no say in what that token ends. -/
theorem alike_of_word (h : t.keyword? ≠ some .elseWord) (r r' : List Token) :
    Alike (t :: r) (t :: r') :=
  ⟨fun u hu => ⟨u, hu, rfl, rfl⟩, fun ha => absurd ha (not_atElse_of_word h)⟩

/-- The statements of a program, at one level of nesting. -/
abbrev Statement.ListWritten (rules : Rules) : List Statement → List Token → Prop :=
  Script.ListWritten [.semicolon] .endOfText (fun st ts => st.Written rules .item ts)
    (Statement.EndsBefore .item)

namespace Statement.ListWritten

variable {as bs : List Statement}

theorem begin (h : Statement.ListWritten rules as (t :: ts)) :
    t.kind = .endOfText ∨ t.kind.Begins := by
  generalize hus : t :: ts = us at h
  cases h with
  | done ht =>
    obtain ⟨rfl, -⟩ := List.cons.inj hus
    exact .inl ht
  | separated ha =>
    obtain ⟨u, vs, rfl, hu⟩ := ha.begin
    obtain ⟨rfl, -⟩ := List.cons.inj hus
    exact .inr hu
  | unseparated ha =>
    obtain ⟨u, vs, rfl, hu⟩ := ha.begin
    obtain ⟨rfl, -⟩ := List.cons.inj hus
    exact .inr hu

theorem not_else (h : Statement.ListWritten rules as (t :: ts)) :
    t.keyword? ≠ some .elseWord := by
  generalize hus : t :: ts = us at h
  cases h with
  | done ht =>
    obtain ⟨rfl, -⟩ := List.cons.inj hus
    rw [Token.keyword?_of_kind (by rw [ht]; decide)]
    nofun
  | @separated _ _ _ vs _ ha =>
    obtain ⟨u, vs, rfl, -⟩ := ha.begin
    obtain ⟨rfl, -⟩ := List.cons.inj hus
    exact ha.not_else t rfl
  | @unseparated _ _ _ vs _ ha =>
    obtain ⟨u, vs, rfl, -⟩ := ha.begin
    obtain ⟨rfl, -⟩ := List.cons.inj hus
    exact ha.not_else t rfl

theorem nil_of_single (h : Statement.ListWritten rules as [t]) : as = [] := by
  generalize hus : [t] = us at h
  cases h with
  | done => rfl
  | separated ha =>
    obtain ⟨u, vs, rfl, -⟩ := ha.begin
    simp at hus
  | unseparated ha =>
    obtain ⟨u, vs, rfl, -⟩ := ha.begin
    simp at hus

/-- Every statement ends before a program on a line of its own. -/
theorem endsAll (h : Statement.ListWritten rules as (t :: ts))
    (ht : t.kind = .endOfText ∨ t.newlineBefore = true) : EndsAll .item (t :: ts) := by
  rcases ht with ht | ht
  · exact Delimits.endsAll (by rw [ht]; decide) (by rw [ht]; decide)
  · refine ⟨final_of_break rfl ht (not_atElse_of_word h.not_else), apart_of_break ht,
      fun u hu => ?_, not_continues (.inr ht), not_continues (.inr ht)⟩
    obtain rfl := Option.some.inj hu
    rcases h.begin with hk | hk
    · simp [hk]
    · exact ⟨hk.2.2.2.2.2.2.1, hk.2.2.2.1⟩

theorem refront (b : Bool) (h : Statement.ListWritten rules as ts) :
    Statement.ListWritten rules as (Token.refront b ts) := by
  cases h with
  | done ht => exact .done ht
  | separated ha he ht hs =>
    rw [Token.refront_append b ha.begin.ne_nil]
    exact .separated ha.refront he ht hs
  | unseparated ha he ht hb hs =>
    rw [Token.refront_append b ha.begin.ne_nil]
    exact .unseparated ha.refront he ht hb hs

/-- Two programs are written one after the other, if the second one begins a line. -/
theorem append (h : Statement.ListWritten rules as ts)
    (h' : Statement.ListWritten rules bs (u :: us))
    (hu : u.kind = .endOfText ∨ u.newlineBefore = true) :
    Statement.ListWritten rules (as ++ bs) (ts.dropLast ++ u :: us) := by
  induction h with
  | done => exact h'
  | @separated a as t ts rest ha he ht hs ih =>
    have hne := Script.ListWritten.ne_nil hs
    have hword : t.keyword? ≠ some .elseWord := by
      rw [List.mem_singleton] at ht
      rw [Token.keyword?_of_kind (by rw [ht]; decide)]
      nofun
    rw [List.dropLast_append_of_ne_nil (by simp), List.dropLast_cons_of_ne_nil hne,
      List.append_assoc]
    exact .separated ha ((alike_of_word hword _ _).statement he) ht ih
  | @unseparated a as t ts rest ha he ht hb hs ih =>
    rw [List.dropLast_append_of_ne_nil (by simp), List.append_assoc]
    cases rest with
    | nil =>
      obtain rfl := nil_of_single hs
      refine .unseparated ha ((h'.endsAll hu).statement a) ?_ hu h'
      rcases h'.begin with hk | hk
      · simp [hk]
      · simpa using hk.2.2.2.2.1
    | cons v rest =>
      rw [List.dropLast_cons_of_ne_nil (by simp)] at ih ⊢
      exact .unseparated ha ((alike_of_word (not_else hs) _ _).statement he) ht hb ih

end Statement.ListWritten

/-- Tokens are written as at most one statement, at whatever levels of nesting. -/
theorem Statement.Written.unique {n m : Nat} {st st' : Statement}
    (h : st.Written (Rules.level n) .item ts) (h' : st'.Written (Rules.level m) .item ts)
    (hts : ∀ t ∈ ts, 0 < t.text.utf8ByteSize) : st = st' := by
  have hread : ∀ {n st}, Statement.Written (Rules.level n) .item st ts → ∃ c',
      (Nested.level (Token.weight ts + 1)).statement .item
        (Cursor.start ts (Token.endAt 0 false)) = .ok st c' := by
    intro n st h
    obtain ⟨c', hok, -, -⟩ := (Parser.level_complete _ (n + 1)).statement h
      ⟨hts, Nat.lt_succ_self _⟩ (Cursor.start_rest ts (Token.endAt 0 false)) (by simp)
      ((Delimits.endsAll (by decide) (by decide)).statement st)
    exact ⟨c', hok⟩
  obtain ⟨c, hc⟩ := hread h
  obtain ⟨c', hc'⟩ := hread h'
  rw [hc] at hc'
  exact (Outcome.ok.inj hc').1

/-- What is written at one level is written at all higher ones. -/
theorem Statement.Written.raise {n m : Nat} {st : Statement} (hnm : n ≤ m)
    (h : st.Written (Rules.level n) .item ts) (hts : ∀ t ∈ ts, 0 < t.text.utf8ByteSize) :
    st.Written (Rules.level m) .item ts := by
  have hordered : Ordered id := fun _ _ h => h
  have hraised := h.move (Rules.level_moving hordered hnm) fun _ _ _ => rfl
  have hid : ts.map (Token.move id) = ts := List.map_id' ts
  rw [hid] at hraised
  rw [h.unique hraised hts]
  exact hraised

theorem Statement.ListWritten.raise {n m : Nat} {as : List Statement} (hnm : n ≤ m)
    (h : Statement.ListWritten (Rules.level n) as ts)
    (hts : ∀ t ∈ ts.dropLast, 0 < t.text.utf8ByteSize) :
    Statement.ListWritten (Rules.level m) as ts := by
  induction h with
  | done ht => exact .done ht
  | @separated a as t ts us ha he ht hs ih =>
    have hne := Script.ListWritten.ne_nil hs
    rw [List.dropLast_append_of_ne_nil (by simp), List.dropLast_cons_of_ne_nil hne,
      List.forall_mem_append, List.forall_mem_cons] at hts
    exact .separated (ha.raise hnm hts.1) he ht (ih hts.2.2)
  | @unseparated a as t ts us ha he ht hb hs ih =>
    rw [List.dropLast_append_of_ne_nil (by simp), List.forall_mem_append] at hts
    exact .unseparated (ha.raise hnm hts.1) he ht hb (ih hts.2)

namespace Program

theorem Written.lines {p : Program} (h : p.Written ts) :
    ∃ n, Statement.ListWritten (Rules.level n) p.statements ts := by
  obtain ⟨n, hs⟩ := h.statements
  cases n with
  | zero =>
    generalize p.statements = as at hs
    cases hs with
    | done ht => exact ⟨0, .done ht⟩
    | separated ha => cases ha
    | unseparated ha => cases ha
  | succ n => exact ⟨n, hs⟩

/-- A program ends with its source, whatever the end token says of the line it stands on. -/
theorem refront_append_end (ts : List Token) {t : Token} (ht : t.kind = .endOfText) :
    ∃ u, u.kind = .endOfText ∧ Token.refront true (ts ++ [t]) = Token.refront true ts ++ [u] := by
  cases ts with
  | nil => exact ⟨{ t with newlineBefore := true }, ht, rfl⟩
  | cons v ts => exact ⟨t, ht, rfl⟩

/-- The tokens of two sources with a line break between them. -/
theorem scans_join {a b : List Char} {ts us : List Token} {after after' : Bool}
    (ha : Scans 0 false a [] ts after) (hb : Scans 0 false b [] us after') :
    ∃ last, Scans 0 false (a ++ '\n' :: b) []
      (ts ++ Token.refront true (us.map (Token.move (· + (byteLength a + 1))))) last := by
  obtain ⟨hmoved, -⟩ := hb.move (rigidAt_add (byteLength a + 1) 0)
  obtain ⟨last, hbreak⟩ := hmoved.after_break
  have hseam : Milder [] ('\n' :: b ++ []) := by
    intro d hd
    exact .inr (Option.some.inj hd).symm
  refine ⟨last, (ha.milder hseam).append (.blank rfl ?_)⟩
  rw [beq_self_eq_true, Bool.or_true]
  have hpos : 0 + byteLength a + '\n'.utf8Size = 0 + (byteLength a + 1) := by
    rw [Nat.add_assoc]
    rfl
  rwa [hpos]

/-- Two sources with a line break between them are read as the statements of the one and then those
of the other, which stand as many bytes further on. -/
theorem parse_join {a b : String} {p q : Program} (ha : parse a = .ok p) (hb : parse b = .ok q) :
    ∃ span, parse (a ++ "\n" ++ b) =
      .ok ⟨p.statements ++ q.statements.map (Statement.shift (a.utf8ByteSize + 1)), span⟩ := by
  obtain ⟨ts, lastA, hla, hp⟩ := parse_iff.1 ha
  obtain ⟨us, lastB, hlb, hq⟩ := parse_iff.1 hb
  obtain ⟨n, hp⟩ := hp.lines
  obtain ⟨m, hq⟩ := hq.lines
  obtain ⟨afterA, hscansA, -⟩ := lexed_iff.1 hla
  obtain ⟨afterB, hscansB, -⟩ := lexed_iff.1 hlb
  obtain ⟨after, hscans⟩ := scans_join hscansA hscansB
  rw [byteLength_toList] at hscans
  -- The second program is moved, begins a line, and ends with the end token of the whole text.
  have hmoving := Rules.level_moving (ordered_add (a.utf8ByteSize + 1)) (Nat.le_max_right n m)
  have hmoved : Statement.ListWritten (Rules.level (max n m)) _ _ :=
    hq.move (fun t _ => rigidAt_add (a.utf8ByteSize + 1) t.start) (fun _ _ h => h.move hmoving)
      fun st r h => st.endsBefore_mapSpans.2 ((alike_move _ r).statement h)
  have hfront := hmoved.refront true
  have hkind : lastB.kind = .endOfText := Lexed.last_kind hlb
  rw [List.map_append, List.map_singleton] at hfront
  generalize us.map (Token.move (· + (a.utf8ByteSize + 1))) = us' at hscans hfront
  obtain ⟨u, hu, hend⟩ := refront_append_end us'
    (show (lastB.move (· + (a.utf8ByteSize + 1))).kind = .endOfText from hkind)
  generalize hlast : Token.endAt (0 + (a ++ "\n" ++ b).utf8ByteSize) after = last
  have hlastKind : last.kind = .endOfText := by rw [← hlast]; rfl
  have hq' := hfront.append (.done hlastKind) (.inl hlastKind)
  rw [hend, List.dropLast_concat, List.append_nil] at hq'
  have hp' := hp.raise (Nat.le_max_left n m) (by
    rw [List.dropLast_concat]
    exact (Lexed.tokens_size hla).2)
  have hjoined : Statement.ListWritten (Rules.level (max n m))
      (p.statements ++ q.statements.map (Statement.shift (a.utf8ByteSize + 1)))
      (ts ++ Token.refront true us' ++ [last]) := by
    rw [List.append_assoc]
    have hts : (ts ++ [lastA]).dropLast = ts := List.dropLast_concat
    rw [← hts]
    cases us' with
    | nil => exact hp'.append hq' (.inl hlastKind)
    | cons v us' => exact hp'.append hq' (.inr rfl)
  refine ⟨_, parse_iff.2
    ⟨ts ++ Token.refront true us', last, ?_, ⟨⟨max n m + 1, hjoined⟩, rfl⟩⟩⟩
  rw [lexed_iff, ← hlast]
  refine ⟨after, ?_, rfl⟩
  simpa using hscans

theorem parse_join_calls : ∃ p q span, parse "f(1)" = .ok p ∧ parse "g(2)" = .ok q ∧
    parse ("f(1)" ++ "\n" ++ "g(2)") =
      .ok ⟨p.statements ++ q.statements.map (Statement.shift 5), span⟩ := by
  obtain ⟨p, hp⟩ : ∃ p, parse "f(1)" = .ok p := exists_of_isOk (by decide +kernel)
  obtain ⟨q, hq⟩ : ∃ q, parse "g(2)" = .ok q := exists_of_isOk (by decide +kernel)
  obtain ⟨span, h⟩ := parse_join hp hq
  exact ⟨p, q, span, hp, hq, h⟩

end Program

end Script
