import Script.Grammar.Session
import Script.Proofs.Progress

/-!
Reading again and again. Whatever a reading answers, it leaves the surroundings as they were and the
position where it was or further on; so readings from where the last one stopped settle on one
answer, and after a success there is nothing left to read.
-/
namespace Script

open Program

variable {ts us vs : List Token} {c c' : Cursor} {α : Type} {x : Session ts}

namespace Session

theorem cursor_rest (x : Session ts) : x.cursor.rest = ts.drop x.position := by
  rw [cursor, Cursor.rest]
  dsimp only
  rw [Fin.getElem_fin, List.getElem_cons_drop]

theorem cursor_into (x : Session ts) : x.cursor.Into ts (ts.take x.position) where
  rest := by rw [cursor_rest, List.take_append_drop]
  before := rfl

/-- A cursor into the tokens is the cursor of a session by its position. -/
theorem cursor_eq (h : c.Into ts us) (hx : x.position = us.length) : x.cursor = c := by
  have hinto := x.cursor_into
  have hrest : ts.take x.position = us ∧ x.cursor.rest = c.rest := by
    refine List.append_inj (hinto.rest.symm.trans h.rest) ?_
    rw [List.length_take, hx]
    have := congrArg List.length h.rest
    rw [List.length_append] at this
    omega
  have hbefore : x.cursor.before = c.before := by rw [hinto.before, h.before, hrest.1]
  obtain ⟨hhere, hahead⟩ := List.cons.inj hrest.2
  generalize x.cursor = d at *
  obtain ⟨before, here, ahead⟩ := d
  obtain ⟨before', here', ahead'⟩ := c
  dsimp only at *
  subst hbefore hhere hahead
  rfl

/-- Run in a session, a parser leaves the session as it was, but for the position: this is where the
parser stopped in the same tokens, at the earliest where it began. -/
structure Keeps (x : Session ts) (p : Parser α) : Prop where
  surroundings : (x.run p).2.surroundings = x.surroundings
  cursor : (x.run p).2.cursor = (p x.surroundings x.cursor).rest
  position : x.position ≤ (x.run p).2.position

theorem Keeps.of_takes {p : Parser α}
    (h : x.cursor.Takes vs (p x.surroundings x.cursor).rest) : x.Keeps p := by
  have hinto := x.cursor_into.takes h
  have hlength := congrArg List.length hinto.rest
  rw [List.length_append, List.length_append, List.length_take_of_le (Nat.le_of_lt x.position.isLt)]
    at hlength
  have hposition : ((x.run p).2.position : Nat) =
      ts.length - (p x.surroundings x.cursor).rest.rest.length := rfl
  refine ⟨rfl, cursor_eq hinto ?_, ?_⟩
  · rw [hposition, List.length_append,
      List.length_take_of_le (Nat.le_of_lt x.position.isLt)]
    omega
  · rw [Fin.le_def, hposition]
    omega

theorem position_of_rest {p : Parser α} (h : (p x.surroundings x.cursor).rest = x.cursor) :
    (x.run p).2.position = x.position := by
  have hlength := congrArg List.length x.cursor_into.rest
  rw [List.length_append, List.length_take_of_le (Nat.le_of_lt x.position.isLt)] at hlength
  have hposition : ((x.run p).2.position : Nat) =
      ts.length - (p x.surroundings x.cursor).rest.rest.length := rfl
  refine Fin.ext ?_
  rw [hposition, h]
  omega

theorem run_within (brace : BraceContext) (breakEnds : Bool) (p : Parser α) :
    @run ts α (Parser.within brace breakEnds p) = under brace breakEnds (run p) := rfl

theorem run_inHead (p : Parser α) (x : Session ts) :
    x.run (Parser.inHead p) = x.under .expectBlock x.surroundings.breakEnds (run p) := rfl

theorem Keeps.of_paid {n m e : Nat} {d : α → Nat} {p : Nested → Parser α}
    (h : Parser.Paid n m e d p) (hts : Token.Closed ts) (hw : x.cursor.weight < m) :
    x.Keeps (p (Nested.level n)) := by
  obtain ⟨qs, k, -, -, hpays⟩ := h x.surroundings x.cursor (hts.sound x.cursor_into) hw
  obtain ⟨vs, htakes, -⟩ := hpays.takes
  exact .of_takes htakes

/-- Each part that is read under other surroundings keeps the session. -/
structure Parts (x : Session ts) (nested : Nested) : Prop where
  statements : ∀ brace breakEnds separators close, x.Keeps
    (Parser.within brace breakEnds (Parser.separated separators close nested.statement))
  exprs : ∀ brace breakEnds separators close, x.Keeps
    (Parser.within brace breakEnds (Parser.separated separators close (nested.expr .group)))
  values : ∀ brace breakEnds separators close, x.Keeps
    (Parser.within brace breakEnds (Parser.separated separators close (nested.value .group)))
  params : ∀ brace breakEnds separators close, x.Keeps
    (Parser.within brace breakEnds (Parser.separated separators close Parser.param))
  properties : ∀ brace breakEnds separators close, x.Keeps
    (Parser.within brace breakEnds (Parser.separated separators close Parser.property))
  nodeEntries : ∀ brace breakEnds separators close, x.Keeps
    (Parser.within brace breakEnds (Parser.separated separators close (Parser.nodeEntry nested)))
  fieldDecls : ∀ brace breakEnds separators close, x.Keeps
    (Parser.within brace breakEnds (Parser.separated separators close Parser.fieldDecl))
  enumMembers : ∀ brace breakEnds separators close, x.Keeps
    (Parser.within brace breakEnds (Parser.separated separators close (Parser.enumMember nested)))
  expr : ∀ brace breakEnds min, x.Keeps (Parser.within brace breakEnds (nested.expr min))
  value : ∀ brace breakEnds min, x.Keeps (Parser.within brace breakEnds (nested.value min))
  varDecl : ∀ brace breakEnds, x.Keeps (Parser.within brace breakEnds (Parser.varDecl nested))
  whenCases : ∀ brace breakEnds, x.Keeps (Parser.within brace breakEnds (Parser.whenCases nested))
  elseCase : ∀ brace breakEnds, x.Keeps (Parser.within brace breakEnds (Parser.elseCase nested))

open Script.Parser in
theorem parts_level {n : Nat} (hts : Token.Closed ts) (hw : x.cursor.weight < n) :
    x.Parts (Nested.level n) := by
  have hn := Nested.level_advances n
  have hkeeps : ∀ {α : Type} {p : Nested → Parser α} (brace : BraceContext) (breakEnds : Bool),
      Follows n p → x.Keeps (Parser.within brace breakEnds (p (Nested.level n))) :=
    fun brace breakEnds h => .of_paid (h.within brace breakEnds) hts hw
  have hlist : ∀ {α : Type} {p : Nested → Parser α} (brace : BraceContext) (breakEnds : Bool)
      (separators : List TokenKind) (close : TokenKind), Advances n p → x.Keeps
        (Parser.within brace breakEnds (separated separators close (p (Nested.level n)))) :=
    fun brace breakEnds separators close h =>
      hkeeps brace breakEnds (follows_separated separators close h)
  exact
    { statements := fun _ _ _ _ => hlist _ _ _ _ hn.statement
      exprs := fun _ _ _ _ => hlist _ _ _ _ (hn.expr .group)
      values := fun _ _ _ _ => hlist _ _ _ _ (hn.value .group)
      params := fun _ _ _ _ => hlist _ _ _ _ leads_param.advances
      properties := fun _ _ _ _ => hlist _ _ _ _ leads_property.advances
      nodeEntries := fun _ _ _ _ => hlist _ _ _ _ (advances_nodeEntry hn)
      fieldDecls := fun _ _ _ _ => hlist _ _ _ _ leads_fieldDecl.advances
      enumMembers := fun _ _ _ _ => hlist _ _ _ _ (leads_enumMember hn).advances
      expr := fun _ _ min => hkeeps _ _ (hn.expr min).follows
      value := fun _ _ min => hkeeps _ _ (hn.value min).follows
      varDecl := fun _ _ => hkeeps _ _ (leads_varDecl hn).follows
      whenCases := fun _ _ => hkeeps _ _ (follows_whenCases hn)
      elseCase := fun _ _ => hkeeps _ _ (follows_elseCase hn) }

section Readings

variable {n m : Nat}

theorem keeps_program (hts : Token.Closed ts) (x : Session ts) : x.Keeps Parser.program := by
  obtain ⟨vs, -, htakes, -⟩ := read_takes (hts.sound x.cursor_into)
  exact .of_takes htakes

theorem answer_eq (x : Session ts) (n : Nat) : x.answer n = (read (x.after n).cursor).result := rfl

theorem after_surroundings (x : Session ts) (n : Nat) :
    (x.after n).surroundings = x.surroundings := by
  induction n with
  | zero => rfl
  | succ n ih => exact ih

/-- A reading that leaves the position where it was leaves all as it was. -/
theorem after_eq_of_stationary (h : (x.after (n + 1)).position = (x.after n).position)
    (hm : n ≤ m) :
    x.after m = x.after n := by
  have hstep : x.after (n + 1) = x.after n := Session.ext h rfl
  obtain ⟨k, rfl⟩ := Nat.exists_eq_add_of_le hm
  induction k with
  | zero => rfl
  | succ k ih =>
    have hnext : x.after (n + (k + 1)) = (x.after (n + k)).readProgram.2 := rfl
    rw [hnext, ih (Nat.le_add_right n k)]
    exact hstep

theorem answer_eq_of_stationary (h : (x.after (n + 1)).position = (x.after n).position)
    (hm : n ≤ m) : x.answer m = x.answer n := by
  rw [answer, answer, after_eq_of_stationary h hm]

/-- The position cannot move on in every reading. -/
theorem exists_stationary (hts : Token.Closed ts) (x : Session ts) :
    ∃ n < ts.length, (x.after (n + 1)).position = (x.after n).position := by
  refine Classical.byContradiction fun hmoves => ?_
  have hfar : ∀ n ≤ ts.length, n ≤ (x.after n).position := by
    intro n
    induction n with
    | zero => exact fun _ => Nat.zero_le _
    | succ n ih =>
      intro hn
      have hle := (keeps_program hts (x.after n)).position
      have hne : ((x.after (n + 1)).position : Nat) ≠ (x.after n).position := fun h =>
        hmoves ⟨n, hn, Fin.ext h⟩
      have hle : ((x.after n).position : Nat) ≤ (x.after (n + 1)).position := hle
      have := ih (by omega)
      omega
  have := hfar ts.length (Nat.le_refl _)
  have := (x.after ts.length).position.isLt
  omega

theorem after_succ (x : Session ts) (n : Nat) : x.after (n + 1) = x.readProgram.2.after n := by
  induction n with
  | zero => rfl
  | succ n ih =>
    have hnext : x.after (n + 1 + 1) = (x.after (n + 1)).readProgram.2 := rfl
    rw [hnext, ih]
    rfl

/-- The readings of a session are those from where the cursor stopped each time. -/
theorem readRepeatedly_eq (hts : Token.Closed ts) (x : Session ts) (n : Nat) :
    readRepeatedly n x.cursor = (List.range n).map x.answer := by
  induction n generalizing x with
  | zero => rfl
  | succ n ih =>
    have hrest : readRepeatedly (n + 1) x.cursor =
        (read x.cursor).result :: readRepeatedly n (read x.cursor).rest := by
      rw [readRepeatedly]
      cases read x.cursor <;> rfl
    have hcursor : x.readProgram.2.cursor = (read x.cursor).rest := (keeps_program hts x).cursor
    have hanswer : x.answer ∘ Nat.succ = x.readProgram.2.answer := by
      funext i
      rw [Function.comp_apply, answer, Nat.succ_eq_add_one, after_succ]
      rfl
    rw [hrest, ← hcursor, ih, List.range_succ_eq_map, List.map_cons, List.map_map, hanswer]
    rfl

theorem listed_close {separators : List TokenKind} {close : TokenKind} {item : Parser α}
    {s : Surroundings} {as : List α} (h : Parser.Listed separators close item s c as c') :
    c'.here.kind = close := by
  induction h with
  | done h => exact h
  | separated _ _ _ _ ih => exact ih
  | unseparated _ _ _ _ _ ih => exact ih

/-- At the end token there is nothing to read. -/
theorem read_end (h : c.here.kind = .endOfText) :
    read c = .ok ⟨[], ⟨0, max c.here.stop c.here.start⟩⟩ c :=
  Parser.programWithin_ok.2 ⟨[], Parser.separated_of_listed (.done h) (Nat.succ_pos _), rfl⟩

variable {source : String} {start stop : Nat}

/-- The end token is the only one of its kind, and all tokens begin before it ends. -/
theorem end_of_tokenizeRange (hts : tokenizeRange source start stop = .ok ts) :
    ∃ last, (∀ t ∈ ts, t.kind = .endOfText → t = last) ∧ ∀ t ∈ ts, t.start ≤ last.stop := by
  obtain ⟨tokens, last, rfl, hl⟩ := tokenizeRange_ok hts
  obtain ⟨after, -, hlast⟩ := lexed_iff.1 hl
  refine ⟨last, fun t ht hk => ?_, fun t ht => ?_⟩
  all_goals rw [List.mem_append, List.mem_singleton] at ht
  all_goals rcases ht with ht | rfl
  · exact absurd hk (Lexed.tokens_kind hl t ht)
  · rfl
  · have hstop := (Lexed.inside hl ht).2
    rw [hlast]
    simp only [Token.stop, Token.endAt] at hstop ⊢
    omega
  · exact Nat.le_add_right _ _

theorem here_mem (x : Session ts) : x.cursor.here ∈ ts := List.getElem_mem _

/-- After a success the session is at the end, where there is nothing to read. -/
theorem answer_of_ok (hts : tokenizeRange source start stop = .ok ts) {p : Program}
    (h : x.answer n = .ok p) :
    (x.after (n + 2)).position = (x.after (n + 1)).position ∧
      x.answer (n + 1) = .ok ⟨[], p.span⟩ := by
  have hclosed := tokenizeRange_closed hts
  have hnext : (x.after (n + 1)).cursor = (read (x.after n).cursor).rest :=
    (keeps_program hclosed (x.after n)).cursor
  obtain ⟨last, honly, hstart⟩ := end_of_tokenizeRange hts
  rw [answer_eq] at h
  have hfirst := hstart _ (x.after n).here_mem
  generalize (x.after n).cursor = c at h hnext hfirst
  cases hread : read c with
  | error e c' =>
    rw [hread] at h
    cases h
  | ok q c' =>
    rw [hread] at h hnext
    obtain rfl : q = p := Except.ok.inj h
    obtain rfl : (x.after (n + 1)).cursor = c' := hnext
    obtain ⟨statements, hs, rfl⟩ := Parser.programWithin_ok.1 hread
    have hend := listed_close (Parser.listed_of_separated hs)
    have hlast := honly _ (x.after (n + 1)).here_mem hend
    have hagain := read_end hend
    refine ⟨position_of_rest (p := Parser.program) (congrArg Outcome.rest hagain), ?_⟩
    have hself : (x.after (n + 1)).cursor.here.start ≤ (x.after (n + 1)).cursor.here.stop :=
      Nat.le_add_right _ _
    rw [answer_eq, hagain, Nat.max_eq_left hself, Nat.max_eq_left (hlast ▸ hfirst)]
    rfl

end Readings

/-- A session can be used again after any answer. Surroundings and tokens are the same before and
after every reading and every part that is read under other surroundings, the position never moves
back, and it settles: a reading that does not move it is repeated for ever, which is so from the
reading on that has the number of the tokens; and after a success there is nothing left to read. -/
theorem readings {source : String} {start stop : Nat}
    (hts : tokenizeRange source start stop = .ok ts) (x : Session ts) :
    (∀ n, readRepeatedly n x.cursor = (List.range n).map x.answer) ∧
    (∀ n, (x.after n).surroundings = x.surroundings ∧ (x.after n).Keeps Parser.program) ∧
    (∀ (α : Type) (p : Parser α) (brace : BraceContext) (breakEnds : Bool),
      x.run (Parser.within brace breakEnds p) = x.under brace breakEnds (run p) ∧
      x.run (Parser.inHead p) = x.under .expectBlock x.surroundings.breakEnds (run p)) ∧
    (∀ n, x.cursor.weight < n → x.Parts (Nested.level n)) ∧
    (∀ n, (x.after (n + 1)).position = (x.after n).position → ∀ m ≥ n, x.answer m = x.answer n) ∧
    (∀ m, ts.length ≤ m + 1 → x.answer m = x.answer (ts.length - 1)) ∧
    ∀ n p, x.answer n = .ok p → ∀ m > n, x.answer m = .ok ⟨[], p.span⟩ := by
  have hclosed := tokenizeRange_closed hts
  refine ⟨readRepeatedly_eq hclosed x, fun n => ⟨x.after_surroundings n, keeps_program hclosed _⟩,
    fun _ p brace breakEnds => ⟨by rw [run_within], run_inHead p x⟩,
    fun n hn => parts_level hclosed hn, fun n h m hm => answer_eq_of_stationary h hm, ?_, ?_⟩
  · intro m hm
    obtain ⟨n, hn, hstationary⟩ := exists_stationary hclosed x
    rw [answer_eq_of_stationary hstationary (show n ≤ m by omega),
      answer_eq_of_stationary hstationary (show n ≤ ts.length - 1 by omega)]
  · intro n p hp m hm
    obtain ⟨hstationary, hnext⟩ := answer_of_ok hts hp
    rw [answer_eq_of_stationary hstationary hm, hnext]

/-- The first reading fails inside the first line, and the second goes on to the end. -/
theorem readings_settle :
    ∃ ts, ∃ x : Session ts, tokenizeRange "1 2\n3" 0 5 = .ok ts ∧ (x.answer 0).isOk = false ∧
      ∃ p, x.answer 1 = .ok p ∧ p.statements.length = 2 ∧
        ∀ m > 1, x.answer m = .ok ⟨[], ⟨0, 5⟩⟩ := by
  let ts : List Token := [⟨.number .int, "1", 0, false⟩, ⟨.number .int, "2", 2, false⟩,
    ⟨.number .int, "3", 4, true⟩, Token.endAt 5 false]
  have hts : tokenizeRange "1 2\n3" 0 5 = .ok ts := by rfl
  let x : Session ts := ⟨⟨0, by decide⟩, ⟨.expectValue, true⟩⟩
  obtain ⟨p, hp⟩ : ∃ p, x.answer 1 = .ok p := exists_of_isOk (by decide +kernel)
  have hspan : (x.answer 1).toOption.map (fun p => (p.statements.length, p.span)) =
      some (2, ⟨0, 5⟩) := by decide +kernel
  rw [hp] at hspan
  obtain ⟨hlength, hspan⟩ := Prod.mk.inj (Option.some.inj hspan)
  refine ⟨ts, x, hts, by decide +kernel, p, hp, hlength, fun m hm => ?_⟩
  obtain ⟨-, -, -, -, -, -, hend⟩ := readings hts x
  rw [hend 1 p hp m hm, hspan]

end Session

end Script
