import Script.Proofs.Progress.Expression
import Script.Proofs.Successes

/-!
What constructs, declarations and statements take pays for the calls that they make, and so it does
at every level of nesting.
-/
namespace Script

namespace Parser

/-- One binding in the head of a construct, with its semicolon. -/
def initStep (nested : Nested) : Parser (Option VarDecl) := do
  if isBindingWord (← keyword?) then
    let decl ← inHead (varDecl nested)
    let _ ← token .semicolon
    return some decl
  else return none

/-- One case of a `when`, with what ends it. -/
def caseStep (nested : Nested) : Parser (Option WhenCase) := do
  if (← isAt .closeBrace) || (← isAtKeyword .elseWord) then return none
  let c ← whenCase nested
  if ← skip .semicolon then return some c
  else if ← isAt .closeBrace then return some c
  else if ← isAtLineStart then return some c
  else unexpected (.itemEnd [.semicolon] .closeBrace)

/-- One more name that is used. -/
def useStep : Parser (Option Name) := do
  if ← skip .comma then return some (← name) else return none

theorem initDecls_eq (nested : Nested) : initDecls nested = collect (initStep nested) := rfl

theorem whenCases_eq (nested : Nested) : whenCases nested = collect (caseStep nested) := rfl

variable {n : Nat} {s : Surroundings} {c : Cursor} (hn : Nested.Advances n)

section Control

include hn

theorem follows_condition : Follows n fun nested => condition nested :=
  (hn.expr .group).follows.inHead

theorem iterates_elseIf : Iterates n fun nested => elseIf nested := by
  intro s c hc hw
  simp only [elseIf, isAtElse_bind, nextHas_bind, position_bind, ite_apply]
  refine .ite (fun h => Script.Paid.iterates ?_) fun _ => .pure c rfl
  have hword : c.here.keyword? = some .elseWord := by
    simp only [atElse, Bool.and_eq_true, beq_iff_eq] at h
    exact h.1.1
  refine leads_advance_bind_at (f := fun _ _ => _) hc (by omega) ?_ fun _ => ?_
  · rw [ident_of_keyword? hword]
    simp
  · exact follows_advance.bind fun _ => (follows_condition hn).bind fun _ =>
      (leads_block hn).follows.bind fun _ => look_bind fun _ => .pure rfl

theorem follows_elseBlock : Follows n fun nested => elseBlock nested := by
  intro s c hc hw
  simp only [elseBlock, isAtElse_bind, ite_apply]
  refine .ite (fun _ => ?_) fun _ => .pure c rfl
  exact (follows_advance.bind fun _ => (leads_block hn).follows.bind fun _ => .pure rfl) s c hc hw

theorem leads_ifStmt : Leads n fun nested => ifStmt nested := by
  refine look_bind fun _ => (leads_keyword _).bind fun _ => (follows_condition hn).bind fun _ => ?_
  exact (leads_block hn).follows.bind fun _ => (follows_collect (iterates_elseIf hn)).bind fun _ =>
    (follows_elseBlock hn).bind fun _ => look_bind fun _ => .pure rfl

omit hn in
theorem leads_bindingKind : Leads n fun _ => bindingKind := by
  intro s c hc hw
  simp only [bindingKind, keyword?_bind]
  cases hk : c.here.keyword? with
  | none => exact paid_unexpected _ (Nat.le_refl 1) s c hc hw
  | some w =>
    have hend : c.here.kind ≠ .endOfText := by
      rw [ident_of_keyword? hk]
      simp
    cases w with
    | varWord => exact leads_advance_bind_at hc hw hend fun _ => .pure rfl
    | letWord => exact leads_advance_bind_at hc hw hend fun _ => .pure rfl
    | _ => exact paid_unexpected _ (Nat.le_refl 1) s c hc hw

theorem leads_varDecl : Leads n fun nested => varDecl nested := by
  refine look_bind fun _ => leads_bindingKind.bind fun _ => leads_ident.follows.bind fun _ => ?_
  exact follows_annotation.bind fun _ => (follows_token _).bind fun _ =>
    (hn.value .group).follows.bind fun _ => look_bind fun _ => .pure rfl

theorem iterates_initStep : Iterates n fun nested => initStep nested := by
  refine look_bind fun _ => .ite (fun _ => ?_) fun _ => .pure rfl
  exact Leads.iterates
    (Leads.bind (leads_varDecl hn).inHead fun _ => (follows_token _).bind fun _ => .pure rfl)

theorem follows_initDecls : Follows n fun nested => initDecls nested := by
  simp only [initDecls_eq]
  exact follows_collect (iterates_initStep hn)

theorem leads_iterHead : Leads n fun nested => iterHead nested := by
  refine leads_ident.bind fun first => (follows_skip _).bind fun b => ?_
  have hrest : ∀ names : Option Ident × Ident, Follows n fun nested => do
      let _ ← keyword .inWord
      let iterable ← inHead (nested.value .group)
      return ForHead.iterate names.1 names.2 iterable := fun _ =>
    (leads_keyword _).follows.bind fun _ => (hn.value .group).follows.inHead.bind fun _ => .pure rfl
  cases b with
  | true => exact leads_ident.follows.bind fun second => hrest (some first, second)
  | false => exact hrest (none, first)

theorem follows_countedHead : Follows n fun nested => countedHead nested := by
  refine (follows_initDecls hn).bind fun _ =>
    look_bind fun _ => .ite (fun _ => .pure rfl) fun _ => ?_
  exact (follows_condition hn).bind fun _ => .pure rfl

theorem leads_forStmt : Leads n fun nested => forStmt nested := by
  refine look_bind fun start => (leads_keyword _).bind fun _ => ?_
  have hrest : ∀ head : ForHead, Follows n fun nested => do
      let body ← block nested
      return (⟨head, body, ← spanFrom start⟩ : ForStmt) := fun _ =>
    (leads_block hn).follows.bind fun _ => look_bind fun _ => .pure rfl
  intro s c hc hw
  simp only [isAtIterHead_bind]
  cases atIterHead c with
  | true => exact ((leads_iterHead hn).follows.bind hrest) s c hc hw
  | false => exact ((follows_countedHead hn).bind hrest) s c hc hw

theorem leads_caseBody : Leads n fun nested => caseBody nested := by
  intro s c hc hw
  simp only [caseBody, isAt_bind, ite_apply]
  refine .ite (fun h => ?_) fun _ => .ite (fun _ => ?_) fun _ => ?_
  · refine leads_advance_bind_at (f := fun _ _ => _) hc hw ?_ fun _ => ?_
    · rw [beq_iff_eq.1 h]
      simp
    · exact hn.statement.follows.bind fun _ => .pure rfl
  · exact ((leads_block hn).bind fun _ => .pure rfl) s c hc hw
  · exact paid_unexpected _ (Nat.le_refl 1) s c hc hw

theorem leads_whenCase : Leads n fun nested => whenCase nested := by
  refine look_bind fun _ => (leads_keyword _).bind fun _ => ?_
  exact ((hn.expr .pair).follows.within _ _).bind fun _ => (leads_caseBody hn).follows.bind fun _ =>
    look_bind fun _ => .pure rfl

theorem iterates_caseStep : Iterates n fun nested => caseStep nested := by
  refine look_bind fun a => look_bind fun b => .ite (fun _ => .pure rfl) fun _ => ?_
  refine Leads.iterates ((leads_whenCase hn).bind fun x => (follows_skip _).bind fun b => ?_)
  refine .ite (fun _ => .pure rfl) fun _ => look_bind fun b => .ite (fun _ => .pure rfl) fun _ => ?_
  exact look_bind fun b => .ite (fun _ => .pure rfl) fun _ => paid_unexpected _ (Nat.zero_le 1)

theorem follows_whenCases : Follows n fun nested => whenCases nested := by
  simp only [whenCases_eq]
  exact follows_collect (iterates_caseStep hn)

theorem follows_elseCase : Follows n fun nested => elseCase nested := by
  refine look_bind fun _ => .ite (fun _ => ?_) fun _ => .pure rfl
  refine follows_advance.bind fun _ => (leads_caseBody hn).follows.bind fun _ => ?_
  exact (follows_skip _).bind fun _ => look_bind fun _ =>
    .ite (fun _ => .pure rfl) fun _ => paid_unexpected _ (Nat.zero_le 1)

theorem leads_whenStmt : Leads n fun nested => whenStmt nested := by
  refine look_bind fun _ => (leads_keyword _).bind fun _ => (follows_initDecls hn).bind fun _ => ?_
  refine (follows_condition hn).bind fun _ => (follows_token _).bind fun _ => ?_
  refine ((follows_whenCases hn).within _ _).bind fun _ => ?_
  exact ((follows_elseCase hn).within _ _).bind fun _ => (follows_token _).bind fun _ =>
    look_bind fun _ => .pure rfl

theorem leads_value (min : Strength) : Leads n fun nested => value nested min := by
  refine look_bind fun _ => look_bind fun o => ?_
  have hexpr := leads_expr hn min
  cases o with
  | none => exact hexpr
  | some w =>
    cases w with
    | ifWord => exact (leads_ifStmt hn).bind fun _ => look_bind fun _ => .pure rfl
    | whenWord => exact (leads_whenStmt hn).bind fun _ => look_bind fun _ => .pure rfl
    | _ => exact hexpr

end Control

section Declarations

theorem iterates_useStep : Iterates n fun _ => useStep := by
  intro s c hc hw
  simp only [useStep, skip_bind]
  refine .ite (fun h => Script.Paid.iterates ?_) fun _ => .pure c rfl
  exact leads_advance_bind_at (f := fun _ _ => name >>= fun x => pure (some x)) hc (by omega)
    (by simp [h]) fun _ => leads_name.follows.bind fun _ => .pure rfl

theorem follows_useSubs : Follows n fun _ => useSubs := by
  refine look_bind fun _ => .ite (fun _ => ?_) fun _ => .pure rfl
  exact follows_advance.bind fun _ => leads_name.follows.bind fun _ =>
    (follows_collect iterates_useStep).bind fun _ => .pure rfl

theorem leads_useDecl : Leads n fun _ => useDecl :=
  look_bind fun _ => (leads_keyword _).bind fun _ => leads_name.follows.bind fun _ =>
    follows_useSubs.bind fun _ => look_bind fun _ => .pure rfl

theorem leads_param : Leads n fun _ => param :=
  look_bind fun _ => leads_ident.bind fun _ => follows_annotation.bind fun _ =>
    look_bind fun _ => .pure rfl

theorem leads_property : Leads n fun _ => property :=
  look_bind fun _ => leads_name.bind fun _ => follows_annotation.bind fun _ =>
    look_bind fun _ => .pure rfl

theorem leads_fieldDecl : Leads n fun _ => fieldDecl :=
  look_bind fun _ => leads_ident.bind fun _ => (follows_token _).bind fun _ =>
    leads_typeRef.follows.bind fun _ => look_bind fun _ => .pure rfl

theorem leads_typeDecl : Leads n fun _ => typeDecl :=
  look_bind fun _ => (leads_keyword _).bind fun _ => leads_ident.follows.bind fun _ =>
    (leads_bracketed (by simp) (by simp) _ leads_fieldDecl.advances).follows.bind fun _ =>
      look_bind fun _ => .pure rfl

include hn

theorem follows_importArgs : Follows n fun nested => importArgs nested := by
  refine look_bind fun _ => .ite (fun _ => ?_) fun _ => .pure rfl
  exact (leads_arguments hn).follows.bind fun _ => .pure rfl

theorem leads_importDecl : Leads n fun nested => importDecl nested :=
  look_bind fun _ => (leads_keyword _).bind fun _ => leads_name.follows.bind fun _ =>
    (follows_importArgs hn).bind fun _ => look_bind fun _ => .pure rfl

theorem follows_fnBody : Follows n fun nested => fnBody nested := by
  refine (follows_skip _).bind fun _ => .ite (fun _ => ?_) fun _ => ?_
  · exact (hn.expr .group).follows.bind fun _ => .pure rfl
  · exact (leads_block hn).follows.bind fun _ => .pure rfl

theorem leads_fnDecl : Leads n fun nested => fnDecl nested := by
  refine look_bind fun _ => (leads_keyword _).bind fun _ => leads_name.follows.bind fun _ => ?_
  refine (leads_bracketed (by simp) (by simp) _ leads_param.advances).follows.bind fun _ => ?_
  exact follows_annotation.bind fun _ =>
    (follows_fnBody hn).bind fun _ => look_bind fun _ => .pure rfl

/-- An entry of a node may be an expression of the level below, so it is not read but after a
brace. -/
theorem advances_nodeEntry : Advances n fun nested => nodeEntry nested := by
  refine look_bind fun _ => look_bind fun _ => .ite (fun _ => ?_) fun _ => ?_
  · exact ((leads_ifStmt hn).bind fun _ => look_bind fun _ => .pure rfl).advances
  · exact (hn.expr .group).bind fun _ =>
      .ite (fun _ => .pure rfl) fun _ => paid_fail (by simp) _ (Nat.zero_le 1)

theorem follows_nodeBody : Follows n fun nested => nodeBody nested := by
  refine look_bind fun _ => .ite (fun _ => ?_) fun _ => .pure rfl
  exact (leads_bracketed (by simp) (by simp) _ (advances_nodeEntry hn)).follows.bind fun _ =>
    .pure rfl

theorem leads_nodeDecl : Leads n fun nested => nodeDecl nested := by
  refine look_bind fun _ => (leads_keyword _).bind fun _ => leads_name.follows.bind fun _ => ?_
  refine (leads_bracketed (by simp) (by simp) _ leads_property.advances).follows.bind fun _ => ?_
  exact (follows_nodeBody hn).bind fun _ => look_bind fun _ => .pure rfl

theorem leads_enumMember : Leads n fun nested => enumMember nested := by
  refine look_bind fun _ => leads_ident.bind fun _ => (follows_skip _).bind fun _ => ?_
  refine .ite (fun _ => ?_) fun _ => look_bind fun _ => .pure rfl
  exact (hn.expr .group).follows.bind fun _ => look_bind fun _ => .pure rfl

theorem leads_enumDecl : Leads n fun nested => enumDecl nested :=
  look_bind fun _ => (leads_keyword _).bind fun _ => leads_ident.follows.bind fun _ =>
    (leads_bracketed (by simp) (by simp) _ (leads_enumMember hn).advances).follows.bind fun _ =>
      look_bind fun _ => .pure rfl

end Declarations

section Statements

theorem kind_of_leadWord {t : Token} {next : Option Token} {w : Keyword}
    (h : leadWord t next = some w) : t.kind = .ident := by
  unfold leadWord at h
  split at h
  · cases h
  · rename_i hk
    exact ident_of_keyword? hk

include hn

theorem leads_exprStatement : Leads n fun nested => exprStatement nested := by
  refine (leads_expr hn .group).bind fun e =>
    look_bind fun _ => .ite (fun _ => ?_) fun _ => .pure rfl
  cases e.kind with
  | name target =>
    exact follows_advance.bind fun _ => (hn.value .group).follows.bind fun _ => .pure rfl
  | _ => exact paid_fail (by simp) _ (Nat.zero_le 1)

theorem leads_statementKind : Leads n fun nested => statementKind nested := by
  intro s c hc hw
  simp only [statementKind, statementWord?_bind]
  have hexpr := leads_exprStatement hn s c hc hw
  cases hlead : leadWord c.here c.next? with
  | none => exact hexpr
  | some w =>
    have hend : c.here.kind ≠ .endOfText := by
      rw [kind_of_leadWord hlead]
      simp
    have hblock : ∀ f : Block → StatementKind, Script.Paid n c 1 (fun _ => 2) fun nested => (do
        let _ ← advance
        return f (← block nested) : Parser StatementKind) s c := fun _ =>
      leads_advance_bind_at (f := fun _ _ => _) hc hw hend fun _ =>
        (leads_block hn).follows.bind fun _ => .pure rfl
    cases w with
    | modWord =>
      exact leads_advance_bind_at (f := fun _ _ => _) hc hw hend fun _ =>
        leads_name.follows.bind fun _ => (leads_block hn).follows.bind fun _ => .pure rfl
    | useWord => exact (leads_useDecl.bind fun _ => .pure rfl) s c hc hw
    | importWord => exact ((leads_importDecl hn).bind fun _ => .pure rfl) s c hc hw
    | varWord => exact ((leads_varDecl hn).bind fun _ => .pure rfl) s c hc hw
    | letWord => exact ((leads_varDecl hn).bind fun _ => .pure rfl) s c hc hw
    | fnWord => exact ((leads_fnDecl hn).bind fun _ => .pure rfl) s c hc hw
    | nodeWord => exact ((leads_nodeDecl hn).bind fun _ => .pure rfl) s c hc hw
    | ifWord => exact ((leads_ifStmt hn).bind fun _ => .pure rfl) s c hc hw
    | forWord => exact ((leads_forStmt hn).bind fun _ => .pure rfl) s c hc hw
    | whenWord => exact ((leads_whenStmt hn).bind fun _ => .pure rfl) s c hc hw
    | uiWord => exact hblock _
    | styleWord => exact hblock _
    | typeWord => exact (leads_typeDecl.bind fun _ => .pure rfl) s c hc hw
    | enumWord => exact ((leads_enumDecl hn).bind fun _ => .pure rfl) s c hc hw
    | breakWord => exact leads_advance_bind_at hc hw hend fun _ => .pure rfl
    | _ => exact hexpr

theorem leads_statement : Leads n fun nested => statement nested :=
  look_bind fun _ => (leads_statementKind hn).bind fun _ => look_bind fun _ => .pure rfl

end Statements

end Parser

open Script.Parser

/-- The body of a call is paid for if the calls of the level below are, and with the call itself it
still leaves one call over. -/
theorem Call.paid {n : Nat} (hn : Nested.Advances n) (q : Call) (hc : q.cursor.Sound)
    (hw : q.cursor.weight < n + 1) : Paid n q.cursor 1 (fun _ => 2) q.body := by
  obtain ⟨inside, s, c⟩ := q
  cases inside with
  | expr min => exact leads_expr hn min s c hc hw
  | value min => exact leads_value hn min s c hc hw
  | statement => exact leads_statement hn s c hc hw

/-- A call is answered one level up, where it counts as one. -/
theorem Call.answered {n : Nat} (hn : Nested.Advances n) (q : Call) (hc : q.cursor.Sound)
    (hw : q.cursor.weight < n + 1) :
    Paid (n + 1) q.cursor 0 (fun _ => 1) fun nested => nested.answer q := by
  obtain ⟨qs, k, hasks, hadds, hpays⟩ := Call.paid hn q hc hw
  refine ⟨[q], k + 1 + 0, .call _ q, .cons ⟨qs, k, hasks, hadds, rfl⟩ .nil, ?_⟩
  dsimp only
  rw [Nested.answer_level]
  generalize q.body (Nested.level n) = o at hpays
  cases hpays with
  | ok h hk => exact .ok h (by omega)
  | error h hx hk => exact .error h hx (by omega)

/-- Every call is answered at a level above the bytes ahead. -/
theorem Nested.level_advances : ∀ n, Nested.Advances n
  | 0 => ⟨fun _ _ _ _ hw => absurd hw (Nat.not_lt_zero _),
      fun _ _ _ _ hw => absurd hw (Nat.not_lt_zero _),
      fun _ _ _ hw => absurd hw (Nat.not_lt_zero _)⟩
  | n + 1 =>
    have hn := Nested.level_advances n
    ⟨fun min s c => Call.answered hn ⟨.expr min, s, c⟩,
      fun min s c => Call.answered hn ⟨.value min, s, c⟩,
      fun s c => Call.answered hn ⟨.statement, s, c⟩⟩

namespace Program

/-- A program is read to an end within the calls that its tokens pay for. -/
theorem read_paid {c : Cursor} (hc : c.Sound) : Paid (c.weight + 1) c 0 (fun _ => 0) fun nested =>
    Parser.programWithin nested ⟨.expectValue, true⟩ c := by
  have hstatements := follows_separated [.semicolon] .endOfText
    (Nested.level_advances (c.weight + 1)).statement
  have hprogram : Follows (c.weight + 1) fun nested => Parser.programWithin nested :=
    look_bind fun _ => (hstatements.within _ _).bind fun _ => look_bind fun _ => .pure rfl
  exact hprogram _ c hc (Nat.lt_succ_self _)

end Program

end Script
