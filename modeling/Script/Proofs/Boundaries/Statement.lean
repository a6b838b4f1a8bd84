import Script.Grammar.Program
import Script.Proofs.Boundaries.Expression

/-!
The positions that statements and programs report, and with that those of every error of a parse.
-/
namespace Script

open Chars

variable {P : Nat → Prop}

namespace Parser

variable {nested : Nested}

section Control

variable (hn : nested.On P)
include hn

theorem on_condition : On P (fun e => e.span.On P) (condition nested) := (hn.expr .group).inHead

omit hn in
theorem on_isAtElse : On P (fun _ => True) isAtElse := by
  refine on_look.bind fun b _ => ?_
  split
  · exact on_look
  · exact .pure trivial

theorem on_elseIf : On P (fun _ => True) (elseIf nested) := by
  refine on_isAtElse.bind fun a _ => on_look.bind fun b _ => ?_
  split
  · exact on_position.bind fun _ hi => on_advance.bind fun _ _ => on_advance.bind fun _ _ =>
      (on_condition hn).bind fun _ _ => (on_block hn).bind fun _ _ =>
        (on_spanFrom hi).bind fun _ _ => .pure trivial
  · exact .pure trivial

theorem on_elseBlock : On P (fun _ => True) (elseBlock nested) := by
  refine on_isAtElse.bind fun b _ => ?_
  split
  · exact on_advance.bind fun _ _ => (on_block hn).bind fun _ _ => .pure trivial
  · exact .pure trivial

theorem on_ifStmt : On P (fun _ => True) (ifStmt nested) :=
  on_position.bind fun _ hi => (on_keyword _).bind fun _ _ => (on_condition hn).bind fun _ _ =>
    (on_block hn).bind fun _ _ => (on_collect (on_elseIf hn)).bind fun _ _ =>
      (on_elseBlock hn).bind fun _ _ => (on_spanFrom hi).bind fun _ _ => .pure trivial

omit hn in
theorem on_bindingKind : On P (fun _ => True) bindingKind := by
  refine on_look.bind fun o _ => ?_
  split
  · exact on_advance.bind fun _ _ => .pure trivial
  · exact on_advance.bind fun _ _ => .pure trivial
  · exact on_unexpected _

theorem on_varDecl : On P (fun _ => True) (varDecl nested) :=
  on_position.bind fun _ hi => on_bindingKind.bind fun _ _ => on_ident.bind fun _ _ =>
    on_annotation.bind fun _ _ => (on_token _).bind fun _ _ => (hn.value .group).bind fun _ _ =>
      (on_spanFrom hi).bind fun _ _ => .pure trivial

theorem on_initDecls : On P (fun _ => True) (initDecls nested) := by
  refine on_collect (on_look.bind fun o _ => ?_)
  split
  · exact (on_varDecl hn).inHead.bind fun _ _ => (on_token _).bind fun _ _ => .pure trivial
  · exact .pure trivial

theorem on_iterHead : On P (fun _ => True) (iterHead nested) := by
  have hrest : ∀ o y, On P (fun _ => True)
      (do
        let _ ← keyword .inWord
        let iterable ← inHead (nested.value .group)
        return .iterate o y iterable : Parser ForHead) := fun _ _ =>
    (on_keyword _).bind fun _ _ => (hn.value .group).inHead.bind fun _ _ => .pure trivial
  refine on_ident.bind fun first _ => (on_skip _).bind fun b _ => ?_
  split
  · exact on_ident.bind fun _ _ => hrest _ _
  · exact hrest _ _

theorem on_countedHead : On P (fun _ => True) (countedHead nested) := by
  refine (on_initDecls hn).bind fun _ _ => on_look.bind fun b _ => ?_
  split
  · exact .pure trivial
  · exact (on_condition hn).bind fun _ _ => .pure trivial

omit hn in
theorem on_isAtIterHead : On P (fun _ => True) isAtIterHead := by
  refine on_here.bind fun t _ => ?_
  split
  · exact on_look
  · exact .pure trivial

theorem on_forStmt : On P (fun _ => True) (forStmt nested) := by
  have hrest : ∀ {i}, P i → ∀ head, On P (fun _ => True)
      (do
        let body ← block nested
        return ⟨head, body, ← spanFrom i⟩ : Parser ForStmt) := fun hi _ =>
    (on_block hn).bind fun _ _ => (on_spanFrom hi).bind fun _ _ => .pure trivial
  refine on_position.bind fun _ hi => (on_keyword _).bind fun _ _ => on_isAtIterHead.bind fun b _ => ?_
  split
  · exact (on_iterHead hn).bind fun _ _ => hrest hi _
  · exact (on_countedHead hn).bind fun _ _ => hrest hi _

theorem on_caseBody : On P (fun _ => True) (caseBody nested) := by
  refine on_look.bind fun b _ => ?_
  split
  · exact on_advance.bind fun _ _ => hn.statement.bind fun _ _ => .pure trivial
  refine on_look.bind fun b _ => ?_
  split
  · exact (on_block hn).bind fun _ _ => .pure trivial
  · exact on_unexpected _

theorem on_whenCase : On P (fun _ => True) (whenCase nested) :=
  on_position.bind fun _ hi => (on_keyword _).bind fun _ _ =>
    ((hn.expr .pair).within _ _).bind fun _ _ => (on_caseBody hn).bind fun _ _ =>
      (on_spanFrom hi).bind fun _ _ => .pure trivial

theorem on_whenCases : On P (fun _ => True) (whenCases nested) := by
  refine on_collect (on_look.bind fun a _ => on_look.bind fun b _ => ?_)
  split
  · exact .pure trivial
  refine (on_whenCase hn).bind fun x _ => (on_skip _).bind fun b _ => ?_
  split
  · exact .pure trivial
  refine on_look.bind fun b _ => ?_
  split
  · exact .pure trivial
  refine on_look.bind fun b _ => ?_
  split
  · exact .pure trivial
  · exact on_unexpected _

theorem on_elseCase : On P (fun _ => True) (elseCase nested) := by
  refine on_look.bind fun b _ => ?_
  split
  · refine on_advance.bind fun _ _ => (on_caseBody hn).bind fun _ _ => (on_skip _).bind fun _ _ => ?_
    refine on_look.bind fun b _ => ?_
    split
    · exact .pure trivial
    · exact on_unexpected _
  · exact .pure trivial

theorem on_whenStmt : On P (fun _ => True) (whenStmt nested) :=
  on_position.bind fun _ hi => (on_keyword _).bind fun _ _ => (on_initDecls hn).bind fun _ _ =>
    (on_condition hn).bind fun _ _ => (on_token _).bind fun _ _ =>
      ((on_whenCases hn).within _ _).bind fun _ _ => ((on_elseCase hn).within _ _).bind fun _ _ =>
        (on_token _).bind fun _ _ => (on_spanFrom hi).bind fun _ _ => .pure trivial

theorem on_value (min : Strength) : On P (fun e => e.span.On P) (value nested min) := by
  refine on_position.bind fun _ hi => on_look.bind fun o _ => ?_
  split
  · exact (on_ifStmt hn).bind fun _ _ => (on_spanFrom hi).bind fun _ h => .pure h
  · exact (on_whenStmt hn).bind fun _ _ => (on_spanFrom hi).bind fun _ h => .pure h
  · exact on_expr hn min

end Control

section Declarations

variable (hn : nested.On P)
include hn

omit hn in
theorem on_useDecl : On P (fun _ => True) useDecl := by
  have hmore : On P (fun _ => True) (do
      if ← skip .comma then return some (← name) else return none) := by
    refine (on_skip _).bind fun b _ => ?_
    split
    · exact on_name.bind fun _ _ => .pure trivial
    · exact .pure trivial
  have hsubs : On P (fun _ => True) useSubs := by
    refine on_here.bind fun t _ => ?_
    split
    · exact on_advance.bind fun _ _ => on_name.bind fun _ _ => (on_collect hmore).bind fun _ _ =>
        .pure trivial
    · exact .pure trivial
  exact on_position.bind fun _ hi => (on_keyword _).bind fun _ _ => on_name.bind fun _ _ =>
    hsubs.bind fun _ _ => (on_spanFrom hi).bind fun _ _ => .pure trivial

theorem on_importDecl : On P (fun _ => True) (importDecl nested) := by
  have hargs : On P (fun _ => True) (importArgs nested) := by
    refine on_here.bind fun t _ => ?_
    split
    · exact (on_arguments hn).bind fun _ _ => .pure trivial
    · exact .pure trivial
  exact on_position.bind fun _ hi => (on_keyword _).bind fun _ _ => on_name.bind fun _ _ =>
    hargs.bind fun _ _ => (on_spanFrom hi).bind fun _ _ => .pure trivial

theorem on_fnDecl : On P (fun _ => True) (fnDecl nested) := by
  have hparam : On P (fun _ => True) param := on_position.bind fun _ hi => on_ident.bind fun _ _ =>
    on_annotation.bind fun _ _ => (on_spanFrom hi).bind fun _ _ => .pure trivial
  have hbody : On P (fun _ => True) (fnBody nested) := by
    refine (on_skip _).bind fun b _ => ?_
    split
    · exact (hn.expr .group).bind fun _ _ => .pure trivial
    · exact (on_block hn).bind fun _ _ => .pure trivial
  exact on_position.bind fun _ hi => (on_keyword _).bind fun _ _ => on_name.bind fun _ _ =>
    (on_bracketed _ _ _ hparam).bind fun _ _ => on_annotation.bind fun _ _ =>
      hbody.bind fun _ _ => (on_spanFrom hi).bind fun _ _ => .pure trivial

theorem on_nodeDecl : On P (fun _ => True) (nodeDecl nested) := by
  have hproperty : On P (fun _ => True) property :=
    on_position.bind fun _ hi => on_name.bind fun _ _ => on_annotation.bind fun _ _ =>
      (on_spanFrom hi).bind fun _ _ => .pure trivial
  have hentry : On P (fun _ => True) (nodeEntry nested) := by
    refine on_position.bind fun _ hi => on_look.bind fun b _ => ?_
    split
    · exact (on_ifStmt hn).bind fun _ _ => (on_spanFrom hi).bind fun _ _ => .pure trivial
    · refine (hn.expr .group).bind fun e he => ?_
      split
      · exact .pure trivial
      · exact on_fail he _
  have hbody : On P (fun _ => True) (nodeBody nested) := by
    refine on_here.bind fun t _ => ?_
    split
    · exact (on_bracketed _ _ _ hentry).bind fun _ _ => .pure trivial
    · exact .pure trivial
  exact on_position.bind fun _ hi => (on_keyword _).bind fun _ _ => on_name.bind fun _ _ =>
    (on_bracketed _ _ _ hproperty).bind fun _ _ => hbody.bind fun _ _ =>
      (on_spanFrom hi).bind fun _ _ => .pure trivial

omit hn in
theorem on_typeDecl : On P (fun _ => True) typeDecl := by
  have hfield : On P (fun _ => True) fieldDecl := on_position.bind fun _ hi =>
    on_ident.bind fun _ _ => (on_token _).bind fun _ _ => on_typeRef.bind fun _ _ =>
      (on_spanFrom hi).bind fun _ _ => .pure trivial
  exact on_position.bind fun _ hi => (on_keyword _).bind fun _ _ => on_ident.bind fun _ _ =>
    (on_bracketed _ _ _ hfield).bind fun _ _ => (on_spanFrom hi).bind fun _ _ => .pure trivial

theorem on_enumDecl : On P (fun _ => True) (enumDecl nested) := by
  have hmember : On P (fun _ => True) (enumMember nested) := by
    refine on_position.bind fun _ hi => on_ident.bind fun _ _ => (on_skip _).bind fun b _ => ?_
    split
    · exact (hn.expr .group).bind fun _ _ => (on_spanFrom hi).bind fun _ _ => .pure trivial
    · exact (on_spanFrom hi).bind fun _ _ => .pure trivial
  exact on_position.bind fun _ hi => (on_keyword _).bind fun _ _ => on_ident.bind fun _ _ =>
    (on_bracketed _ _ _ hmember).bind fun _ _ => (on_spanFrom hi).bind fun _ _ => .pure trivial

end Declarations

section Statements

variable (hn : nested.On P)
include hn

omit hn in
theorem on_statementWord? : On P (fun _ => True) statementWord? := by
  refine on_look.bind fun o _ => ?_
  split
  · exact .pure trivial
  split
  all_goals first
    | exact .pure trivial
    | exact on_look.bind fun _ _ => .pure trivial

theorem on_exprStatement : On P (fun _ => True) (exprStatement nested) := by
  refine (on_expr hn .group).bind fun e he => on_look.bind fun b _ => ?_
  split
  · split
    · exact on_advance.bind fun _ _ => (hn.value .group).bind fun _ _ => .pure trivial
    · exact on_fail he _
  · exact .pure trivial

theorem on_statementKind : On P (fun _ => True) (statementKind nested) := by
  have hblock : ∀ f : Block → StatementKind, On P (fun _ => True) (do
      let _ ← advance
      return f (← block nested) : Parser StatementKind) := fun _ =>
    on_advance.bind fun _ _ => (on_block hn).bind fun _ _ => .pure trivial
  refine on_statementWord?.bind fun o _ => ?_
  split
  · exact on_advance.bind fun _ _ => on_name.bind fun _ _ => (on_block hn).bind fun _ _ =>
      .pure trivial
  · exact on_useDecl.bind fun _ _ => .pure trivial
  · exact (on_importDecl hn).bind fun _ _ => .pure trivial
  · exact (on_varDecl hn).bind fun _ _ => .pure trivial
  · exact (on_varDecl hn).bind fun _ _ => .pure trivial
  · exact (on_fnDecl hn).bind fun _ _ => .pure trivial
  · exact (on_nodeDecl hn).bind fun _ _ => .pure trivial
  · exact (on_ifStmt hn).bind fun _ _ => .pure trivial
  · exact (on_forStmt hn).bind fun _ _ => .pure trivial
  · exact (on_whenStmt hn).bind fun _ _ => .pure trivial
  · exact hblock _
  · exact hblock _
  · exact on_typeDecl.bind fun _ _ => .pure trivial
  · exact (on_enumDecl hn).bind fun _ _ => .pure trivial
  · exact on_advance.bind fun _ _ => .pure trivial
  · exact on_exprStatement hn

theorem on_statement : On P (fun _ => True) (statement nested) :=
  on_position.bind fun _ hi => (on_statementKind hn).bind fun _ _ =>
    (on_spanFrom hi).bind fun _ _ => .pure trivial

end Statements

end Parser

open Script.Parser

theorem Nested.level_on (P : Nat → Prop) : ∀ n, (Nested.level n).On P
  | 0 => ⟨fun _ _ _ hc => .error hc.here.span, fun _ _ _ hc => .error hc.here.span,
      fun _ _ hc => .error hc.here.span⟩
  | n + 1 =>
    have hn := Nested.level_on P n
    ⟨on_expr hn, on_value hn, on_statement hn⟩

namespace Program

theorem on_read : On P (fun _ => True) fun _ => read := by
  intro s c hc
  have hstatements := (on_separated [.semicolon] .endOfText
    (Nested.level_on P (c.weight + 1)).statement).within .expectValue true
  exact (on_here.bind fun _ _ => hstatements.bind fun _ _ => on_here.bind fun _ _ =>
    On.pure (Q := fun _ => True) trivial) ⟨.expectValue, true⟩ c hc

/-- The positions between the characters of a source, and before and after them. -/
def Boundary (source : String) (pos : Nat) : Prop :=
  ∃ pre post, source.toList = pre ++ post ∧ pos = byteLength pre

/-- Every error spans characters of its source. -/
theorem parse_error_span {source : String} {e : ParseError} (h : parse source = .error e) :
    e.span.On (Boundary source) := by
  have hsource : Chars.On (Boundary source) 0 source.toList := fun pre post hpre =>
    ⟨pre, post, hpre, Nat.zero_add _⟩
  obtain ⟨htokens, hlast, herror⟩ := Lexed.on hsource
  have hread : ∀ {last : Token}, last.On (Boundary source) →
      (read (Cursor.start (Lexed.ofString 0 source).tokens last)).On (Boundary source)
        fun _ => True := fun hl => on_read ⟨.expectValue, true⟩ _ (Cursor.On.start htokens hl)
  unfold parse ofLexed at h
  split at h
  · rename_i last hl
    have hon := hread (hlast last hl)
    split at h
    · cases h
    · rename_i x c hx
      obtain rfl := Except.error.inj h
      rw [hx] at hon
      cases hon with
      | error he => exact he
  · rename_i lexical hl
    have hlexical := herror lexical hl
    have hon := hread (Token.on_endAt hlexical.start true)
    split at h
    · obtain rfl := Except.error.inj h
      exact hlexical
    · rename_i x c hx
      rw [hx] at hon
      split at h
      · obtain rfl := Except.error.inj h
        cases hon with
        | error he => exact he
      · obtain rfl := Except.error.inj h
        exact hlexical

end Program

end Script
