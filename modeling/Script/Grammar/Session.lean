import Script.Grammar.Program

/-!
Parsers as programs with a state: a position in a token list, and what braces and line breaks mean.
A part that is read under other surroundings sets them, runs, and puts back those that it found.
-/
namespace Script

@[ext] structure Session (ts : List Token) where
  position : Fin ts.length
  surroundings : Surroundings

namespace Session

variable {ts : List Token} {α : Type}

/-- The cursor at the position of a session. -/
def cursor (x : Session ts) : Cursor :=
  ⟨(ts.take x.position).getLast?, ts[x.position], ts.drop (x.position + 1)⟩

/-- Runs a parser, which moves the position whether it succeeds or fails. -/
def run (p : Parser α) (x : Session ts) : Except ParseError α × Session ts :=
  let outcome := p x.surroundings x.cursor
  have hlt : ts.length - outcome.rest.rest.length < ts.length :=
    Nat.sub_lt (Nat.zero_lt_of_lt x.position.isLt) (Nat.succ_pos _)
  (outcome.result, { x with position := ⟨_, hlt⟩ })

/-- Runs a step where braces and line breaks have another meaning, and then puts back what they
meant. -/
def under (brace : BraceContext) (breakEnds : Bool)
    (step : Session ts → Except ParseError α × Session ts) (x : Session ts) :
    Except ParseError α × Session ts :=
  let (answer, y) := step { x with surroundings := ⟨brace, breakEnds⟩ }
  (answer, { y with surroundings := x.surroundings })

/-- Goes on from where a step stopped, unless it failed. -/
def andThen {β : Type} (r : Except ParseError α × Session ts)
    (next : α → Session ts → Except ParseError β × Session ts) : Except ParseError β × Session ts :=
  match r with
  | (.ok a, y) => next a y
  | (.error e, y) => (.error e, y)

/-- Reads a program, whatever braces and line breaks mean. -/
def readProgram (x : Session ts) : Except ParseError Program × Session ts := x.run Parser.program

/-- The session after some readings. -/
def after (x : Session ts) : Nat → Session ts
  | 0 => x
  | n + 1 => (x.after n).readProgram.2

/-- What reading after some readings answers. -/
def answer (x : Session ts) (n : Nat) : Except ParseError Program := (x.after n).readProgram.1

end Session

/-- A reader put together of steps, what each of them reads deciding the next. Some parts are read
where braces and line breaks have another meaning. -/
inductive Plan : Type → Type 1
  | done {α : Type} (a : α) : Plan α
  | step {α β : Type} (p : Parser α) (next : α → Plan β) : Plan β
  | within {α β : Type} (brace : BraceContext) (breakEnds : Bool) (part : Plan α)
      (next : α → Plan β) : Plan β
  | inHead {α β : Type} (part : Plan α) (next : α → Plan β) : Plan β

namespace Plan

/-- The plan as a parser, whose parts are told what braces and line breaks mean. -/
def parser {α : Type} : Plan α → Parser α
  | done a => pure a
  | step p next => p >>= fun a => (next a).parser
  | within brace breakEnds part next =>
    Parser.within brace breakEnds part.parser >>= fun a => (next a).parser
  | inHead part next => Parser.inHead part.parser >>= fun a => (next a).parser

/-- The plan as a program with a state, which sets what braces and line breaks mean for a part and
puts it back afterwards. -/
def run {ts : List Token} {α : Type} : Plan α → Session ts → Except ParseError α × Session ts
  | done a, x => (.ok a, x)
  | step p next, x => Session.andThen (x.run p) fun a => (next a).run
  | within brace breakEnds part next, x =>
    Session.andThen (x.under brace breakEnds part.run) fun a => (next a).run
  | inHead part next, x =>
    Session.andThen (x.under .expectBlock x.surroundings.breakEnds part.run) fun a => (next a).run

/-- A bracketed list. -/
def bracketed {α : Type} (opener : TokenKind) (separators : List TokenKind) (close : TokenKind)
    (item : Parser α) : Plan (List α) :=
  step (Parser.token opener) fun _ =>
  within .expectValue true (step (Parser.separated separators close item) done) fun items =>
  step (Parser.token close) fun _ =>
  done items

def group (nested : Nested) : Plan Expr :=
  step Parser.position fun start =>
  step (Parser.token .openParen) fun _ =>
  within .expectValue false (step (nested.expr .group) done) fun inner =>
  step (Parser.token .closeParen) fun _ =>
  step (Parser.spanFrom start) fun span =>
  done ⟨.group inner, span⟩

def whenCase (nested : Nested) : Plan WhenCase :=
  step Parser.position fun start =>
  step (Parser.keyword .isWord) fun _ =>
  within .expectBlock true (step (nested.expr .pair) done) fun pattern =>
  step (Parser.caseBody nested) fun body =>
  step (Parser.spanFrom start) fun span =>
  done ⟨pattern, body, span⟩

def whenStmt (nested : Nested) : Plan WhenStmt :=
  step Parser.position fun start =>
  step (Parser.keyword .whenWord) fun _ =>
  step (Parser.initDecls nested) fun init =>
  inHead (step (nested.expr .group) done) fun subject =>
  step (Parser.token .openBrace) fun _ =>
  within .expectValue true (step (Parser.whenCases nested) done) fun cases =>
  within .expectValue true (step (Parser.elseCase nested) done) fun elseBody =>
  step (Parser.token .closeBrace) fun _ =>
  step (Parser.spanFrom start) fun span =>
  done ⟨init, subject, cases, elseBody, span⟩

/-- A whole program. -/
def program (nested : Nested) : Plan Program :=
  step Parser.here fun start =>
  within .expectValue true
    (step (Parser.separated [.semicolon] .endOfText nested.statement) done) fun statements =>
  step Parser.here fun last =>
  done ⟨statements, ⟨0, max last.stop start.start⟩⟩

end Plan

end Script
