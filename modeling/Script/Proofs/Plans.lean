import Script.Proofs.Repeated

/-!
Plans in a session. A program with a state that sets what braces and line breaks mean, runs a part,
and puts back what was there does the same as a parser that hands down what they mean: for one part
by the definitions, and for sequences of parts by induction on the plan, because every part leaves
the session as the next one expects it.
-/
namespace Script

variable {ts : List Token} {α : Type} {x : Session ts}

namespace Session

/-- A session that is further on has no more bytes ahead. -/
theorem weight_le {y : Session ts} (h : x.position ≤ y.position) :
    y.cursor.weight ≤ x.cursor.weight := by
  obtain ⟨k, hk⟩ := Nat.exists_eq_add_of_le (Fin.le_def.1 h)
  have hsplit := List.take_append_drop k (ts.drop x.position)
  rw [List.drop_drop, ← hk] at hsplit
  rw [Cursor.weight, Cursor.weight, cursor_rest, cursor_rest, ← hsplit, Token.weight_append]
  exact Nat.le_add_left _ _

/-- Whatever a step does to the surroundings, they are put back. -/
theorem under_surroundings (brace : BraceContext) (breakEnds : Bool)
    (step : Session ts → Except ParseError α × Session ts) (x : Session ts) :
    (x.under brace breakEnds step).2.surroundings = x.surroundings := rfl

/-- Runs that come to the same outcome leave the same session. -/
theorem run_congr {y : Session ts} {p q : Parser α} (hs : x.surroundings = y.surroundings)
    (h : p x.surroundings x.cursor = q y.surroundings y.cursor) : x.run p = y.run q := by
  refine Prod.ext (congrArg Outcome.result h) (Session.ext (Fin.ext ?_) hs)
  exact congrArg (fun o : Outcome α => ts.length - o.rest.rest.length) h

section Sequences

variable {β : Type} {p : Parser α} {f : α → Parser β}

/-- What follows a part goes on from the session that the part leaves. -/
theorem Keeps.bind_eq (h : x.Keeps p) : (p >>= f) x.surroundings x.cursor =
    match (x.run p).1 with
    | .ok a => f a x.surroundings (x.run p).2.cursor
    | .error e => .error e (x.run p).2.cursor := by
  have hanswer : (x.run p).1 = (p x.surroundings x.cursor).result := rfl
  rw [h.cursor, Parser.bind_apply, hanswer]
  cases p x.surroundings x.cursor <;> rfl

/-- A sequence runs its parts one after the other, and an error ends it where it is met. -/
theorem run_bind (h : x.Keeps p) (f : α → Parser β) :
    x.run (p >>= f) = andThen (x.run p) fun a y => y.run (f a) := by
  have hbind := h.bind_eq (f := f)
  cases ha : (x.run p).1 with
  | ok a =>
    rw [ha] at hbind
    rw [show x.run p = (.ok a, (x.run p).2) from Prod.ext ha rfl]
    exact run_congr rfl hbind
  | error e =>
    rw [ha] at hbind
    rw [show x.run p = (.error e, (x.run p).2) from Prod.ext ha rfl]
    refine Prod.ext (congrArg Outcome.result hbind) (Session.ext (Fin.ext ?_) rfl)
    refine (congrArg (fun o : Outcome β => ts.length - o.rest.rest.length) hbind).trans ?_
    rw [h.cursor]
    rfl

theorem Keeps.bind (h : x.Keeps p) (hf : ∀ a, (x.run p).2.Keeps (f a)) : x.Keeps (p >>= f) := by
  have hbind := h.bind_eq (f := f)
  have hrun := run_bind h f
  cases ha : (x.run p).1 with
  | ok a =>
    rw [ha] at hbind
    rw [show x.run p = (.ok a, (x.run p).2) from Prod.ext ha rfl, andThen] at hrun
    exact ⟨rfl, by rw [hrun, hbind, (hf a).cursor]; rfl,
      hrun ▸ Fin.le_trans h.position (hf a).position⟩
  | error e =>
    rw [ha] at hbind
    rw [show x.run p = (.error e, (x.run p).2) from Prod.ext ha rfl, andThen] at hrun
    exact ⟨rfl, by rw [hrun, hbind]; rfl, hrun ▸ h.position⟩

end Sequences

theorem keeps_pure (x : Session ts) (a : α) : x.Keeps (pure a : Parser α) := .of_takes (.refl _)

/-- A part keeps a session under other surroundings if it keeps it where they are set. -/
theorem Keeps.within {p : Parser α} {brace : BraceContext} {breakEnds : Bool}
    (h : Keeps { x with surroundings := ⟨brace, breakEnds⟩ } p) :
    x.Keeps (Parser.within brace breakEnds p) := ⟨rfl, h.cursor, h.position⟩

theorem Keeps.inHead {p : Parser α}
    (h : Keeps { x with surroundings := ⟨.expectBlock, x.surroundings.breakEnds⟩ } p) :
    x.Keeps (Parser.inHead p) := ⟨rfl, h.cursor, h.position⟩

theorem andThen_surroundings {β : Type} {r : Except ParseError α × Session ts}
    {next : α → Session ts → Except ParseError β × Session ts}
    (hr : r.2.surroundings = x.surroundings)
    (hnext : ∀ a, (next a r.2).2.surroundings = r.2.surroundings) :
    (andThen r next).2.surroundings = x.surroundings := by
  obtain ⟨answer, y⟩ := r
  cases answer with
  | ok a => exact (hnext a).trans hr
  | error e => exact hr

end Session

namespace Plan

open Session

/-- Every step of the plan keeps the sessions that are as far as this one or further. -/
def Steady (x : Session ts) {α : Type} : Plan α → Prop
  | done _ => True
  | step p next => (∀ y : Session ts, x.position ≤ y.position → y.Keeps p) ∧
      ∀ a, (next a).Steady x
  | within _ _ part next => part.Steady x ∧ ∀ a, (next a).Steady x
  | inHead part next => part.Steady x ∧ ∀ a, (next a).Steady x

/-- Whatever its parts set, a plan leaves the surroundings as they were. -/
theorem run_surroundings (q : Plan α) (x : Session ts) :
    (q.run x).2.surroundings = x.surroundings := by
  induction q generalizing x with
  | done a => rfl
  | step p next ih => exact andThen_surroundings rfl fun a => ih a _
  | within brace breakEnds part next _ ih =>
    exact andThen_surroundings (under_surroundings brace breakEnds part.run x) fun a => ih a _
  | inHead part next _ ih =>
    exact andThen_surroundings (under_surroundings _ _ part.run x) fun a => ih a _

/-- One part of a plan and what follows it. -/
theorem run_part {β : Type} {y : Session ts} {r : Except ParseError α × Session ts} {p : Parser α}
    {next : α → Plan β} (hr : r = y.run p) (hp : y.Keeps p)
    (hnext : ∀ a, (next a).run (y.run p).2 = (y.run p).2.run (next a).parser ∧
      (y.run p).2.Keeps (next a).parser) :
    andThen r (fun a => (next a).run) = y.run (p >>= fun a => (next a).parser) ∧
      y.Keeps (p >>= fun a => (next a).parser) := by
  refine ⟨?_, hp.bind fun a => (hnext a).2⟩
  rw [run_bind hp, hr]
  generalize y.run p = r at hnext ⊢
  obtain ⟨answer, z⟩ := r
  cases answer with
  | ok a => exact (hnext a).1
  | error e => rfl

/-- A plan that sets the surroundings, runs and puts them back does the same as the parser that is
told them. -/
theorem run_eq {q : Plan α} (h : q.Steady x) {y : Session ts} (hy : x.position ≤ y.position) :
    q.run y = y.run q.parser ∧ y.Keeps q.parser := by
  induction q generalizing y with
  | done a =>
    exact ⟨Prod.ext rfl (Session.ext (position_of_rest (p := pure a) rfl).symm rfl), keeps_pure y a⟩
  | step p next ih =>
    have hp := h.1 y hy
    exact run_part rfl hp fun a => ih a (h.2 a) (Fin.le_trans hy hp.position)
  | within brace breakEnds part next ihp ih =>
    obtain ⟨hrun, hkeeps⟩ := ihp h.1 (y := { y with surroundings := ⟨brace, breakEnds⟩ }) hy
    have hp := hkeeps.within
    refine run_part ?_ hp fun a => ih a (h.2 a) (Fin.le_trans hy hp.position)
    rw [run_within, under, under, hrun]
  | inHead part next ihp ih =>
    obtain ⟨hrun, hkeeps⟩ :=
      ihp h.1 (y := { y with surroundings := ⟨.expectBlock, y.surroundings.breakEnds⟩ }) hy
    have hp := hkeeps.inHead
    refine run_part ?_ hp fun a => ih a (h.2 a) (Fin.le_trans hy hp.position)
    rw [run_inHead, under, under, hrun]

theorem parser_bracketed (opener : TokenKind) (separators : List TokenKind) (close : TokenKind)
    (item : Parser α) : (bracketed opener separators close item).parser =
      Parser.bracketed opener separators close item := by
  simp [bracketed, parser, Parser.bracketed]

theorem parser_group (nested : Nested) : (group nested).parser = Parser.group nested := by
  simp [group, parser, Parser.group]

theorem parser_whenCase (nested : Nested) : (whenCase nested).parser = Parser.whenCase nested := by
  simp [whenCase, parser, Parser.whenCase]

theorem parser_whenStmt (nested : Nested) : (whenStmt nested).parser = Parser.whenStmt nested := by
  simp [whenStmt, parser, Parser.whenStmt, Parser.condition]

theorem parser_program (nested : Nested) :
    (program nested).parser = Parser.programWithin nested := by
  simp [program, parser, Parser.programWithin]

section Grammar

open Script.Parser

variable {n : Nat} {p : Nested → Parser α}

theorem steady_look (g : Surroundings → Cursor → α) {β : Type} {next : α → Plan β}
    (h : ∀ a, (next a).Steady x) :
    (step (fun s c => .ok (g s c) c : Parser α) next).Steady x :=
  ⟨fun _ _ => .of_takes (.refl _), h⟩

theorem steady_step (hts : Token.Closed ts) (hw : x.cursor.weight < n) (hp : Follows n p)
    {β : Type} {next : α → Plan β} (h : ∀ a, (next a).Steady x) :
    (step (p (Nested.level n)) next).Steady x :=
  ⟨fun _ hy => .of_paid hp hts (Nat.lt_of_le_of_lt (weight_le hy) hw), h⟩

theorem steady_part (hts : Token.Closed ts) (hw : x.cursor.weight < n) (hp : Follows n p) :
    (step (p (Nested.level n)) done).Steady x :=
  steady_step hts hw hp fun _ => trivial

variable (hts : Token.Closed ts) (hw : x.cursor.weight < n)
include hts hw

theorem run_bracketed (hp : Advances n p) (opener : TokenKind) (separators : List TokenKind)
    (close : TokenKind) :
    (bracketed opener separators close (p (Nested.level n))).run x =
      x.run (Parser.bracketed opener separators close (p (Nested.level n))) := by
  have hsteady : (bracketed opener separators close (p (Nested.level n))).Steady x := by
    refine steady_step hts hw (follows_token opener) fun _ => ?_
    refine ⟨steady_part hts hw (follows_separated separators close hp), fun _ => ?_⟩
    exact steady_step hts hw (follows_token close) fun _ => trivial
  rw [(run_eq hsteady (Nat.le_refl _)).1, parser_bracketed]

theorem run_group : (group (Nested.level n)).run x = x.run (Parser.group (Nested.level n)) := by
  have hsteady : (group (Nested.level n)).Steady x := by
    refine steady_look _ fun _ => steady_step hts hw (follows_token .openParen) fun _ => ?_
    refine ⟨steady_part hts hw ((Nested.level_advances n).expr .group).follows, fun _ => ?_⟩
    refine steady_step hts hw (follows_token .closeParen) fun _ => ?_
    exact steady_look _ fun _ => trivial
  rw [(run_eq hsteady (Nat.le_refl _)).1, parser_group]

theorem run_whenCase :
    (whenCase (Nested.level n)).run x = x.run (Parser.whenCase (Nested.level n)) := by
  have hn := Nested.level_advances n
  have hsteady : (whenCase (Nested.level n)).Steady x := by
    refine steady_look _ fun _ => steady_step hts hw (leads_keyword .isWord).follows fun _ => ?_
    refine ⟨steady_part hts hw (hn.expr .pair).follows, fun _ => ?_⟩
    refine steady_step hts hw (leads_caseBody hn).follows fun _ => ?_
    exact steady_look _ fun _ => trivial
  rw [(run_eq hsteady (Nat.le_refl _)).1, parser_whenCase]

theorem run_whenStmt :
    (whenStmt (Nested.level n)).run x = x.run (Parser.whenStmt (Nested.level n)) := by
  have hn := Nested.level_advances n
  have hsteady : (whenStmt (Nested.level n)).Steady x := by
    refine steady_look _ fun _ => steady_step hts hw (leads_keyword .whenWord).follows fun _ => ?_
    refine steady_step hts hw (follows_initDecls hn) fun _ => ?_
    refine ⟨steady_part hts hw (hn.expr .group).follows, fun _ => ?_⟩
    refine steady_step hts hw (follows_token .openBrace) fun _ => ?_
    refine ⟨steady_part hts hw (follows_whenCases hn), fun _ => ?_⟩
    refine ⟨steady_part hts hw (follows_elseCase hn), fun _ => ?_⟩
    refine steady_step hts hw (follows_token .closeBrace) fun _ => ?_
    exact steady_look _ fun _ => trivial
  rw [(run_eq hsteady (Nat.le_refl _)).1, parser_whenStmt]

end Grammar

/-- Reading a program is to set the surroundings of its statements, to read them, and to put back
what was there. -/
theorem run_program (hts : Token.Closed ts) (x : Session ts) :
    (program (Nested.level (x.cursor.weight + 1))).run x = x.readProgram := by
  have hw : x.cursor.weight < x.cursor.weight + 1 := Nat.lt_succ_self _
  have hsteady : (program (Nested.level (x.cursor.weight + 1))).Steady x := by
    refine steady_look _ fun _ => ?_
    refine ⟨steady_part hts hw (Parser.follows_separated [.semicolon] .endOfText
      (Nested.level_advances _).statement), fun _ => ?_⟩
    exact steady_look _ fun _ => trivial
  rw [(run_eq hsteady (Nat.le_refl _)).1, parser_program]
  rfl

end Plan

end Script
