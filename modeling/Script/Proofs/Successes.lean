import Script.Grammar.Program
import Script.Proofs.Runs
import Script.Rules.Names
import Script.Tree.Chunks

/-!
What a success of each parser consists of: the conditions that it checks and the successes of its
parts, one after the other. Whatever is proved of a parser takes it apart, or puts it together,
with its lemma here and does not open its definition again.
-/
namespace Script

theorem Cursor.Takes.spanFrom {c c' : Cursor} {ts : List Token} (h : c.Takes ts c') (hts : ts ≠ [])
    (start : Nat) : c'.spanFrom start = Token.spanFrom start ts := by
  have hlast := h.lastStop_eq hts
  simp [Cursor.spanFrom, Token.spanFrom, ← hlast]

theorem Cursor.Takes.spanOf {c c' : Cursor} {ts : List Token} (h : c.Takes ts c')
    (hts : ts ≠ []) : c'.spanFrom c.here.start = Token.spanOf ts := by
  cases ts with
  | nil => exact absurd rfl hts
  | cons t ts => rw [h.spanFrom hts, Token.spanOf, h.here_eq]

theorem Cursor.continues_rest {c : Cursor} {k : TokenKind} :
    Continues k c.rest ↔ Parser.continuesWith k c.here = true := by
  simp [Continues, Cursor.rest]

namespace Parser

variable {s : Surroundings} {c c' : Cursor} {nested : Nested}

theorem segment_ok {o : Option Ident} :
    segment s c = .ok o c' ↔
      (continuesWith .dot c.here = true ∧ (c.next?.map (continuesWith .ident)).getD false = true ∧
          c.advance.here.kind = .ident ∧
          some ⟨c.advance.here.text, c.advance.here.span⟩ = o ∧ c.advance.advance = c') ∨
        (¬ (continuesWith .dot c.here = true ∧
          (c.next?.map (continuesWith .ident)).getD false = true) ∧ none = o ∧ c = c') := by
  simp [segment, ident, and_assoc, -bind_pure_comp]

theorem name_ok {n : Name} :
    name s c = .ok n c' ↔
      (c.here.kind = .dot ∧ c.advance.here.kind = .ident ∧ ∃ is c1,
          collect segment s c.advance.advance = .ok is c1 ∧
          ⟨true, ⟨c.advance.here.text, c.advance.here.span⟩ :: is, c1.spanFrom c.here.start⟩ = n ∧
          c1 = c') ∨
        (c.here.kind ≠ .dot ∧ c.here.kind = .ident ∧ ∃ is c1,
          collect segment s c.advance = .ok is c1 ∧
          ⟨false, ⟨c.here.text, c.here.span⟩ :: is, c1.spanFrom c.here.start⟩ = n ∧ c1 = c') := by
  simp [name, ident, -bind_pure_comp]

/-- The built-in type that a token spells where a type stands. -/
def builtin? (t : Token) : Option PrimitiveType :=
  if t.kind = .ident then PrimitiveType.ofWord? t.text else none

theorem typeRef_ok {t : TypeRef} :
    typeRef s c = .ok t c' ↔
      (∃ type, builtin? c.here = some type ∧ ⟨.primitive type, c.here.span⟩ = t ∧
          c.advance = c') ∨
        (builtin? c.here = none ∧ (c.here.kind = .ident ∨ c.here.kind = .dot) ∧ ∃ n c1,
          name s c = .ok n c1 ∧ ⟨.named n, n.span⟩ = t ∧ c1 = c') := by
  have h : primitive? s c = .ok (builtin? c.here) c := by simp [primitive?, builtin?]
  rw [typeRef, bind_of_ok h]
  cases hb : builtin? c.here with
  | some type => simp [-bind_pure_comp]
  | none => simp [-bind_pure_comp]

theorem annotation_ok {o : Option TypeRef} :
    annotation s c = .ok o c' ↔
      (continuesWith .ident c.here = true ∧ ∃ t c1, typeRef s c = .ok t c1 ∧ some t = o ∧
          c1 = c') ∨
        (¬ continuesWith .ident c.here = true ∧ none = o ∧ c = c') := by
  simp [ annotation, -bind_pure_comp]

theorem bracketed_ok {α : Type} {opener close : TokenKind} {separators : List TokenKind}
    {item : Parser α} {as : List α} :
    bracketed opener separators close item s c = .ok as c' ↔
      c.here.kind = opener ∧ ∃ c1,
        separated separators close item ⟨.expectValue, true⟩ c.advance = .ok as c1 ∧
        c1.here.kind = close ∧ c1.advance = c' := by
  simp only [bracketed, token_bind, ite_eq_ok, bind_ok, within_ok, pure_ok, reduceCtorEq, and_false,
    or_false]
  constructor
  · rintro ⟨ho, items, c1, hi, hk, rfl, rfl⟩
    exact ⟨ho, c1, hi, hk, rfl⟩
  · rintro ⟨ho, c1, hi, hk, rfl⟩
    exact ⟨ho, as, c1, hi, hk, rfl, rfl⟩

theorem block_ok {b : Block} :
    block nested s c = .ok b c' ↔ ∃ statements c1,
      bracketed .openBrace [.semicolon] .closeBrace nested.statement s c = .ok statements c1 ∧
      ⟨statements, c1.spanFrom c.here.start⟩ = b ∧ c1 = c' := by
  simp [block, -bind_pure_comp]

theorem stringLiteral_ok {l : StringLiteral} :
    stringLiteral nested s c = .ok l c' ↔
      literalOf nested c.here = .ok l ∧ c.advance = c' := by
  cases h : literalOf nested c.here with
  | ok literal => simp [stringLiteral, h, -bind_pure_comp]
  | error e => simp [stringLiteral, h, -bind_pure_comp]

theorem named_ok {e : Expr} :
    named s c = .ok e c' ↔ ∃ n c1, name s c = .ok n c1 ∧ ⟨.name n, n.span⟩ = e ∧ c1 = c' := by
  simp [named, -bind_pure_comp]

/-- Whether a word that begins an operand may be a name there. -/
def MayName (t : Token) : Prop :=
  ∀ word, t.keyword? = some word → literalWord? word = none ∧ word.isSoft = true

theorem wordOperand_ok {t : Token} {e : Expr} :
    wordOperand t s c = .ok e c' ↔
      (∃ word literal, t.keyword? = some word ∧ literalWord? word = some literal ∧
          ⟨.literal literal, t.span⟩ = e ∧ c.advance = c') ∨
        (MayName t ∧ named s c = .ok e c') := by
  cases hw : t.keyword? with
  | none => simp [wordOperand, MayName, hw, -bind_pure_comp]
  | some word =>
    cases hl : literalWord? word with
    | some literal => simp [wordOperand, MayName, hw, hl, -bind_pure_comp]
    | none => simp [wordOperand, MayName, hw, hl, -bind_pure_comp]

theorem group_ok {e : Expr} :
    group nested s c = .ok e c' ↔
      c.here.kind = .openParen ∧ ∃ inner c1,
        nested.expr .group ⟨.expectValue, false⟩ c.advance = .ok inner c1 ∧
        c1.here.kind = .closeParen ∧
        ⟨.group inner, c1.advance.spanFrom c.here.start⟩ = e ∧ c1.advance = c' := by
  simp [group, -bind_pure_comp]

theorem array_ok {e : Expr} :
    array nested s c = .ok e c' ↔ ∃ items c1,
      bracketed .openBracket [.comma] .closeBracket (nested.value .group) s c = .ok items c1 ∧
      ⟨.array items, c1.spanFrom c.here.start⟩ = e ∧ c1 = c' := by
  simp [array, -bind_pure_comp]

theorem object_ok {e : Expr} :
    object nested s c = .ok e c' ↔ ∃ entries c1,
      bracketed .openBrace [.comma] .closeBrace nested.statement s c = .ok entries c1 ∧
      ⟨.object entries, c1.spanFrom c.here.start⟩ = e ∧ c1 = c' := by
  simp [object, -bind_pure_comp]

theorem unary_ok {op : UnaryOp} {e : Expr} :
    unary nested op s c = .ok e c' ↔ ∃ operand c1,
      nested.expr .unary s c.advance = .ok operand c1 ∧
      ⟨.unary op operand, c.here.span.cover operand.span⟩ = e ∧ c1 = c' := by
  simp [unary, -bind_pure_comp]

theorem pair_ok {left e : Expr} :
    pair nested left s c = .ok e c' ↔ ∃ key, pairKey? left = some key ∧ ∃ value c1,
      nested.value .transition s c.advance = .ok value c1 ∧
      ⟨.pair key value, left.span.cover value.span⟩ = e ∧ c1 = c' := by
  cases h : pairKey? left with
  | none => simp [pair, h, -bind_pure_comp]
  | some key => simp [pair, h, -bind_pure_comp]

theorem transition_ok {left e : Expr} :
    transition left s c = .ok e c' ↔ ∃ source, left.kind = .name source ∧
      (c.advance.here.kind = .ident ∨ c.advance.here.kind = .dot) ∧ ∃ target c1,
        name s c.advance = .ok target c1 ∧
        ⟨.transition source target, left.span.cover target.span⟩ = e ∧ c1 = c' := by
  obtain ⟨kind, span⟩ := left
  cases kind <;> simp [transition, -bind_pure_comp]

theorem role_afterCall {b : Bool} :
    s.brace.role (.afterCall b) = .trailingBlock ↔ s.brace = .expectValue ∧ b = true := by
  cases s with
  | mk brace breakEnds => cases brace <;> cases b <;> simp [BraceContext.role]

theorem trailingBlock_ok {o : Option Block} :
    trailingBlock nested s c = .ok o c' ↔
      (s.brace = .expectValue ∧ continuesWith .openBrace c.here = true ∧ ∃ b c1,
          block nested s c = .ok b c1 ∧ some b = o ∧ c1 = c') ∨
        (¬ (s.brace = .expectValue ∧ continuesWith .openBrace c.here = true) ∧ none = o ∧
          c = c') := by
  have h : (c.here.kind = .openBrace ∧
      s.brace.role (.afterCall (!c.here.newlineBefore)) = .trailingBlock) ↔
      (s.brace = .expectValue ∧ continuesWith .openBrace c.here = true) := by
    rw [role_afterCall]
    simp only [continuesWith, Bool.and_eq_true, beq_iff_eq]
    constructor
    · rintro ⟨hk, hs, hn⟩
      exact ⟨hs, hk, hn⟩
    · rintro ⟨hs, hk, hn⟩
      exact ⟨hk, hs, hn⟩
  simp only [trailingBlock, here_bind, surroundings_bind, ite_apply, ite_eq_ok, h, bind_ok,
    pure_ok, and_assoc]

theorem call_ok {callee e : Expr} :
    call nested callee s c = .ok e c' ↔ ∃ args c1, arguments nested s c = .ok args c1 ∧
      ∃ body c2, trailingBlock nested s c1 = .ok body c2 ∧
        ⟨.call callee args body, c2.spanFrom callee.span.start⟩ = e ∧ c2 = c' := by
  simp [call, -bind_pure_comp]

/-- What the operator table holds for a kind of token. -/
theorem operator_cases {k : TokenKind} {o : Operator} (h : Operator.ofKind? k = some o) :
    (∃ op : BinaryOp, o = ⟨op.strength, .left, .binary op⟩) ∨
      (∃ op : CompareOp, o = ⟨.comparison, .left, .compare op⟩) ∨
      (k = .colon ∧ o = ⟨.pair, .left, .pair⟩) ∨
      (k = .arrow ∧ o = ⟨.transition, .left, .transition⟩) ∨
      (k = .openParen ∧ o = ⟨.call, .right, .call⟩) := by
  cases k <;> cases h
  case plus => exact .inl ⟨.add, rfl⟩
  case minus => exact .inl ⟨.sub, rfl⟩
  case star => exact .inl ⟨.mul, rfl⟩
  case slash => exact .inl ⟨.div, rfl⟩
  case eq => exact .inr (.inl ⟨.eq, rfl⟩)
  case ne => exact .inr (.inl ⟨.ne, rfl⟩)
  case lt => exact .inr (.inl ⟨.lt, rfl⟩)
  case le => exact .inr (.inl ⟨.le, rfl⟩)
  case gt => exact .inr (.inl ⟨.gt, rfl⟩)
  case ge => exact .inr (.inl ⟨.ge, rfl⟩)
  case colon => exact .inr (.inr (.inl ⟨rfl, rfl⟩))
  case arrow => exact .inr (.inr (.inr (.inl ⟨rfl, rfl⟩)))
  case openParen => exact .inr (.inr (.inr (.inr ⟨rfl, rfl⟩)))

theorem climb_ok {min : Strength} {left : Expr} {x : Option Expr} :
    climb nested min left s c = .ok x c' ↔
      ((∀ o, ¬ Applies s min c.here o) ∧ none = x ∧ c = c') ∨
        (∃ o, Applies s min c.here o ∧ ∃ e, extend nested left o s c = .ok e c' ∧ some e = x) := by
  rw [climb, here_bind, surroundings_bind, ite_apply, ite_eq_ok]
  by_cases hl : (c.here.newlineBefore && s.breakEnds) = true
  · have hnot : ∀ o, ¬ Applies s min c.here o := by
      intro o ho
      simp [ho.sameLine] at hl
    simp [hl, hnot]
  · have hl' : (c.here.newlineBefore && s.breakEnds) = false := by simpa using hl
    cases hk : Operator.ofKind? c.here.kind with
    | none =>
      have hnot : ∀ o, ¬ Applies s min c.here o := by
        intro o ho
        simp [ho.operator] at hk
      simp [hl', hnot]
    | some o =>
      by_cases hs : o.strength < min
      · have hnot : ∀ o, ¬ Applies s min c.here o := by
          intro o' ho
          obtain rfl : o' = o := by simpa [ho.operator] using hk
          exact ho.strong hs
        simp [hl', hs, hnot]
      · have happ : Applies s min c.here o := ⟨hl', hk, hs⟩
        have huniq : ∀ o', Applies s min c.here o' ↔ o' = o := by
          intro o'
          refine ⟨fun ho => ?_, fun ho => ho ▸ happ⟩
          simpa [ho.operator] using hk
        have hex : ¬ ∀ o', ¬ o' = o := fun hall => hall o rfl
        simp [hl', hs, huniq, -bind_pure_comp]

theorem expr_ok {min : Strength} {e : Expr} :
    expr nested min s c = .ok e c' ↔ ∃ first c1, operand nested s c = .ok first c1 ∧
      iterate (climb nested min) first s c1 = .ok e c' := by
  simp [expr, -bind_pure_comp]

theorem condition_ok {e : Expr} :
    condition nested s c = .ok e c' ↔
      nested.expr .group { s with brace := .expectBlock } c = .ok e c' := Iff.rfl

/-- Whether the `else` at a cursor belongs to an `if`. -/
def atElse (c : Cursor) : Bool :=
  c.here.keyword? == some .elseWord && (c.next?.map (·.kind != .arrow)).getD false

theorem atElse_iff {c : Cursor} : atElse c = true ↔ AtElse c.rest := by
  simp only [atElse, Cursor.next?, Bool.and_eq_true, beq_iff_eq]
  constructor
  · rintro ⟨hk, hn⟩
    cases ha : c.ahead with
    | nil => simp [ha] at hn
    | cons t ts =>
      refine ⟨c.here, t, ts, by rw [Cursor.rest, ha], hk, ?_⟩
      simpa [ha] using hn
  · rintro ⟨t, u, us, hr, hk, hu⟩
    obtain ⟨rfl, ha⟩ := Cursor.rest_eq_cons hr
    exact ⟨hk, by simpa [ha] using hu⟩

theorem isAtElse_bind {β : Type} {f : Bool → Parser β} :
    (isAtElse >>= f) s c = f (atElse c) s c := by
  apply bind_of_ok
  by_cases h : c.here.keyword? = some .elseWord <;>
    simp [isAtElse, atElse, h, nextHas, -bind_pure_comp]

theorem elseIf_ok {o : Option ElseIf} :
    elseIf nested s c = .ok o c' ↔
      (atElse c = true ∧ (c.next?.map (·.keyword? == some .ifWord)).getD false = true ∧
          ∃ condition c1, Parser.condition nested s c.advance.advance = .ok condition c1 ∧
          ∃ body c2, block nested s c1 = .ok body c2 ∧
          some ⟨condition, body, c2.spanFrom c.here.start⟩ = o ∧ c2 = c') ∨
        (¬ (atElse c = true ∧ (c.next?.map (·.keyword? == some .ifWord)).getD false = true) ∧
          none = o ∧ c = c') := by
  simp [elseIf, isAtElse_bind, and_assoc, -bind_pure_comp]

theorem elseBlock_ok {o : Option Block} :
    elseBlock nested s c = .ok o c' ↔
      (atElse c = true ∧ ∃ body c1, block nested s c.advance = .ok body c1 ∧ some body = o ∧
          c1 = c') ∨
        (atElse c = false ∧ none = o ∧ c = c') := by
  simp [elseBlock, isAtElse_bind, -bind_pure_comp]

theorem ifStmt_ok {stmt : IfStmt} :
    ifStmt nested s c = .ok stmt c' ↔
      c.here.keyword? = some .ifWord ∧ ∃ condition c1,
        Parser.condition nested s c.advance = .ok condition c1 ∧
        ∃ body c2, block nested s c1 = .ok body c2 ∧
        ∃ elseIfs c3, collect (elseIf nested) s c2 = .ok elseIfs c3 ∧
        ∃ elseBody c4, elseBlock nested s c3 = .ok elseBody c4 ∧
        ⟨condition, body, elseIfs, elseBody, c4.spanFrom c.here.start⟩ = stmt ∧ c4 = c' := by
  simp [ifStmt, -bind_pure_comp]

theorem bindingKind_ok {b : BindingKind} :
    bindingKind s c = .ok b c' ↔ c.here.keyword? = some b.keyword ∧ c.advance = c' := by
  rw [bindingKind, keyword?_bind]
  cases c.here.keyword? with
  | none => simp
  | some word => cases word <;> cases b <;> simp [BindingKind.keyword, -bind_pure_comp]

theorem varDecl_ok {d : VarDecl} :
    varDecl nested s c = .ok d c' ↔ ∃ binding : BindingKind,
      c.here.keyword? = some binding.keyword ∧ c.advance.here.kind = .ident ∧ ∃ type c1,
        annotation s c.advance.advance = .ok type c1 ∧ c1.here.kind = .assign ∧ ∃ value c2,
        nested.value .group s c1.advance = .ok value c2 ∧
        ⟨binding, ⟨c.advance.here.text, c.advance.here.span⟩, type, value,
          c2.spanFrom c.here.start⟩ = d ∧ c2 = c' := by
  simp [varDecl, ident, bindingKind_ok, and_assoc, -bind_pure_comp]

theorem initDecl_ok {o : Option VarDecl} :
    (do if isBindingWord (← keyword?) then
          let decl ← inHead (varDecl nested)
          let _ ← token .semicolon
          return some decl
        else return none : Parser (Option VarDecl)) s c = .ok o c' ↔
      (isBindingWord c.here.keyword? = true ∧ ∃ d c1,
          varDecl nested { s with brace := .expectBlock } c = .ok d c1 ∧
          c1.here.kind = .semicolon ∧ some d = o ∧ c1.advance = c') ∨
        (isBindingWord c.here.keyword? = false ∧ none = o ∧ c = c') := by
  simp [-bind_pure_comp]

/-- Whether the head at a cursor is `i in` or `i, x in`. -/
def atIterHead (c : Cursor) : Bool :=
  c.here.kind == .ident && !isBindingWord c.here.keyword? &&
    (c.next?.map fun next => next.kind == .comma || next.keyword? == some .inWord).getD false

theorem isAtIterHead_bind {β : Type} {f : Bool → Parser β} :
    (isAtIterHead >>= f) s c = f (atIterHead c) s c := by
  apply bind_of_ok
  rw [isAtIterHead, here_bind, ite_apply]
  split
  · rename_i h
    simp only [nextHas, atIterHead, h, Bool.true_and]
  · rename_i h
    simp only [Bool.not_eq_true] at h
    simp only [pure_apply, atIterHead, h, Bool.false_and]

theorem iterHead_ok {head : ForHead} :
    iterHead nested s c = .ok head c' ↔
      c.here.kind = .ident ∧
        ((c.advance.here.kind = .comma ∧ c.advance.advance.here.kind = .ident ∧
            c.advance.advance.advance.here.keyword? = some .inWord ∧ ∃ iterable c1,
            nested.value .group { s with brace := .expectBlock }
              c.advance.advance.advance.advance = .ok iterable c1 ∧
            .iterate (some ⟨c.here.text, c.here.span⟩)
              ⟨c.advance.advance.here.text, c.advance.advance.here.span⟩ iterable = head ∧
            c1 = c') ∨
          (c.advance.here.kind ≠ .comma ∧ c.advance.here.keyword? = some .inWord ∧
            ∃ iterable c1,
            nested.value .group { s with brace := .expectBlock } c.advance.advance =
              .ok iterable c1 ∧
            .iterate none ⟨c.here.text, c.here.span⟩ iterable = head ∧ c1 = c')) := by
  simp [iterHead, ident, -bind_pure_comp]

theorem countedHead_ok {head : ForHead} :
    countedHead nested s c = .ok head c' ↔ ∃ init c1, initDecls nested s c = .ok init c1 ∧
      ((c1.here.kind = .openBrace ∧ .counted init none = head ∧ c1 = c') ∨
        (c1.here.kind ≠ .openBrace ∧ ∃ condition c2,
          Parser.condition nested s c1 = .ok condition c2 ∧
          .counted init (some condition) = head ∧ c2 = c')) := by
  simp [countedHead, -bind_pure_comp]

theorem forStmt_ok {stmt : ForStmt} :
    forStmt nested s c = .ok stmt c' ↔
      c.here.keyword? = some .forWord ∧ ∃ head c1,
        ((atIterHead c.advance = true ∧ iterHead nested s c.advance = .ok head c1) ∨
          (atIterHead c.advance = false ∧ countedHead nested s c.advance = .ok head c1)) ∧
        ∃ body c2, block nested s c1 = .ok body c2 ∧
        ⟨head, body, c2.spanFrom c.here.start⟩ = stmt ∧ c2 = c' := by
  cases h : atIterHead c.advance <;> simp [forStmt, isAtIterHead_bind, h, -bind_pure_comp]

theorem caseBody_ok {body : CaseBody} :
    caseBody nested s c = .ok body c' ↔
      (c.here.kind = .arrow ∧ ∃ st c1, nested.statement s c.advance = .ok st c1 ∧
          .arrow st = body ∧ c1 = c') ∨
        (c.here.kind = .openBrace ∧ ∃ b c1, block nested s c = .ok b c1 ∧ .block b = body ∧
          c1 = c') := by
  by_cases h : c.here.kind = .arrow <;> simp [caseBody, h, -bind_pure_comp]

theorem whenCase_ok {x : WhenCase} :
    whenCase nested s c = .ok x c' ↔
      c.here.keyword? = some .isWord ∧ ∃ pattern c1,
        nested.expr .pair ⟨.expectBlock, true⟩ c.advance = .ok pattern c1 ∧
        ∃ body c2, caseBody nested s c1 = .ok body c2 ∧
        ⟨pattern, body, c2.spanFrom c.here.start⟩ = x ∧ c2 = c' := by
  simp [whenCase, -bind_pure_comp]

theorem elseCase_ok {o : Option CaseBody} :
    elseCase nested s c = .ok o c' ↔
      (c.here.keyword? = some .elseWord ∧ ∃ body c1, caseBody nested s c.advance = .ok body c1 ∧
          ((c1.here.kind = .semicolon ∧ c1.advance.here.kind = .closeBrace ∧ some body = o ∧
              c1.advance = c') ∨
            (c1.here.kind = .closeBrace ∧ some body = o ∧ c1 = c'))) ∨
        (c.here.keyword? ≠ some .elseWord ∧ none = o ∧ c = c') := by
  have h : ∀ body c1, ((c1.here.kind = .semicolon ∧ c1.advance.here.kind = .closeBrace ∧
        some body = o ∧ c1.advance = c') ∨
      (¬ c1.here.kind = .semicolon ∧ c1.here.kind = .closeBrace ∧ some body = o ∧ c1 = c')) ↔
      ((c1.here.kind = .semicolon ∧ c1.advance.here.kind = .closeBrace ∧ some body = o ∧
          c1.advance = c') ∨ (c1.here.kind = .closeBrace ∧ some body = o ∧ c1 = c')) := by
    intro body c1
    by_cases hk : c1.here.kind = .semicolon <;> simp [hk]
  simp [elseCase, h, -bind_pure_comp]

theorem whenStmt_ok {stmt : WhenStmt} :
    whenStmt nested s c = .ok stmt c' ↔
      c.here.keyword? = some .whenWord ∧ ∃ init c1, initDecls nested s c.advance = .ok init c1 ∧
        ∃ subject c2, condition nested s c1 = .ok subject c2 ∧ c2.here.kind = .openBrace ∧
        ∃ cases c3, whenCases nested ⟨.expectValue, true⟩ c2.advance = .ok cases c3 ∧
        ∃ elseBody c4, elseCase nested ⟨.expectValue, true⟩ c3 = .ok elseBody c4 ∧
        c4.here.kind = .closeBrace ∧
        ⟨init, subject, cases, elseBody, c4.advance.spanFrom c.here.start⟩ = stmt ∧
        c4.advance = c' := by
  simp [whenStmt, -bind_pure_comp]

theorem value_ok {min : Strength} {e : Expr} :
    value nested min s c = .ok e c' ↔
      (c.here.keyword? = some .ifWord ∧ ∃ stmt c1, ifStmt nested s c = .ok stmt c1 ∧
          ⟨.ifExpr stmt, c1.spanFrom c.here.start⟩ = e ∧ c1 = c') ∨
        (c.here.keyword? = some .whenWord ∧ ∃ stmt c1, whenStmt nested s c = .ok stmt c1 ∧
          ⟨.whenExpr stmt, c1.spanFrom c.here.start⟩ = e ∧ c1 = c') ∨
        (c.here.keyword? ≠ some .ifWord ∧ c.here.keyword? ≠ some .whenWord ∧
          expr nested min s c = .ok e c') := by
  rw [value, position_bind, keyword?_bind]
  cases c.here.keyword? with
  | none => simp
  | some word => cases word <;> simp [-bind_pure_comp]

theorem whenCases_ok {o : Option WhenCase} :
    (do if (← isAt .closeBrace) || (← isAtKeyword .elseWord) then return none
        let x ← whenCase nested
        if ← skip .semicolon then return some x
        else if ← isAt .closeBrace then return some x
        else if ← isAtLineStart then return some x
        else unexpected (.itemEnd [.semicolon] .closeBrace) : Parser (Option WhenCase)) s c =
        .ok o c' ↔
      ((c.here.kind = .closeBrace ∨ c.here.keyword? = some .elseWord) ∧ none = o ∧ c = c') ∨
        (¬ (c.here.kind = .closeBrace ∨ c.here.keyword? = some .elseWord) ∧
          ∃ x c1, whenCase nested s c = .ok x c1 ∧ some x = o ∧
            ((c1.here.kind = .semicolon ∧ c1.advance = c') ∨
              (c1.here.kind ≠ .semicolon ∧
                (c1.here.kind = .closeBrace ∨ c1.here.newlineBefore = true) ∧ c1 = c'))) := by
  have h : ∀ x : WhenCase, ∀ c1 : Cursor,
      ((c1.here.kind = .semicolon ∧ some x = o ∧ c1.advance = c') ∨
        (¬ c1.here.kind = .semicolon ∧ ((c1.here.kind = .closeBrace ∧ some x = o ∧ c1 = c') ∨
          (¬ c1.here.kind = .closeBrace ∧ c1.here.newlineBefore = true ∧ some x = o ∧
            c1 = c')))) ↔
      (some x = o ∧ ((c1.here.kind = .semicolon ∧ c1.advance = c') ∨
        (¬ c1.here.kind = .semicolon ∧
          (c1.here.kind = .closeBrace ∨ c1.here.newlineBefore = true) ∧ c1 = c'))) := by
    intro x c1
    by_cases hs : c1.here.kind = .semicolon
    · simp [hs]
    · by_cases hb : c1.here.kind = .closeBrace <;> simp [hs, hb, and_left_comm]
  simp [h, -bind_pure_comp]

theorem useSubs_ok {ns : List Name} :
    useSubs s c = .ok ns c' ↔
      (continuesWith .colon c.here = true ∧ ∃ n c1, name s c.advance = .ok n c1 ∧ ∃ others c2,
          collect (do if ← skip .comma then return some (← name) else return none) s c1 =
            .ok others c2 ∧ n :: others = ns ∧ c2 = c') ∨
        (continuesWith .colon c.here = false ∧ [] = ns ∧ c = c') := by
  simp [useSubs, -bind_pure_comp]

theorem useSub_ok {o : Option Name} :
    (do if ← skip .comma then return some (← name) else return none : Parser (Option Name)) s c =
        .ok o c' ↔
      (c.here.kind = .comma ∧ ∃ n c1, name s c.advance = .ok n c1 ∧ some n = o ∧ c1 = c') ∨
        (c.here.kind ≠ .comma ∧ none = o ∧ c = c') := by
  simp [-bind_pure_comp]

theorem useDecl_ok {d : UseDecl} :
    useDecl s c = .ok d c' ↔
      c.here.keyword? = some .useWord ∧ ∃ path c1, name s c.advance = .ok path c1 ∧
        ∃ subs c2, useSubs s c1 = .ok subs c2 ∧ ⟨path, subs, c2.spanFrom c.here.start⟩ = d ∧
        c2 = c' := by
  simp [useDecl, -bind_pure_comp]

theorem importArgs_ok {o : Option (List Expr)} :
    importArgs nested s c = .ok o c' ↔
      (continuesWith .openParen c.here = true ∧ ∃ args c1, arguments nested s c = .ok args c1 ∧
          some args = o ∧ c1 = c') ∨
        (continuesWith .openParen c.here = false ∧ none = o ∧ c = c') := by
  simp [importArgs, -bind_pure_comp]

theorem importDecl_ok {d : ImportDecl} :
    importDecl nested s c = .ok d c' ↔
      c.here.keyword? = some .importWord ∧ ∃ path c1, name s c.advance = .ok path c1 ∧
        ∃ args c2, importArgs nested s c1 = .ok args c2 ∧
        ⟨path, args, c2.spanFrom c.here.start⟩ = d ∧ c2 = c' := by
  simp [importDecl, -bind_pure_comp]

theorem param_ok {p : Param} :
    param s c = .ok p c' ↔
      c.here.kind = .ident ∧ ∃ type c1, annotation s c.advance = .ok type c1 ∧
        ⟨⟨c.here.text, c.here.span⟩, type, c1.spanFrom c.here.start⟩ = p ∧ c1 = c' := by
  simp [param, ident, -bind_pure_comp]

theorem fnBody_ok {body : FnBody} :
    fnBody nested s c = .ok body c' ↔
      (c.here.kind = .assign ∧ ∃ e c1, nested.expr .group s c.advance = .ok e c1 ∧
          .expr e = body ∧ c1 = c') ∨
        (c.here.kind ≠ .assign ∧ ∃ b c1, block nested s c = .ok b c1 ∧ .block b = body ∧
          c1 = c') := by
  simp [fnBody, -bind_pure_comp]

theorem fnDecl_ok {d : FnDecl} :
    fnDecl nested s c = .ok d c' ↔
      c.here.keyword? = some .fnWord ∧ ∃ name c1, Parser.name s c.advance = .ok name c1 ∧
        ∃ params c2, bracketed .openParen [.comma] .closeParen param s c1 = .ok params c2 ∧
        ∃ result c3, annotation s c2 = .ok result c3 ∧
        ∃ body c4, fnBody nested s c3 = .ok body c4 ∧
        ⟨name, params, result, body, c4.spanFrom c.here.start⟩ = d ∧ c4 = c' := by
  simp [fnDecl, -bind_pure_comp]

theorem property_ok {p : Property} :
    property s c = .ok p c' ↔ ∃ name c1, Parser.name s c = .ok name c1 ∧
      ∃ type c2, annotation s c1 = .ok type c2 ∧
      ⟨name, type, c2.spanFrom c.here.start⟩ = p ∧ c2 = c' := by
  simp [property, -bind_pure_comp]

theorem nodeEntry_ok {st : Statement} :
    nodeEntry nested s c = .ok st c' ↔
      (c.here.keyword? = some .ifWord ∧ ∃ stmt c1, ifStmt nested s c = .ok stmt c1 ∧
          ⟨.ifStmt stmt, c1.spanFrom c.here.start⟩ = st ∧ c1 = c') ∨
        (c.here.keyword? ≠ some .ifWord ∧ ∃ e c1, nested.expr .group s c = .ok e c1 ∧
          isPair e = true ∧ ⟨.expr e, e.span⟩ = st ∧ c1 = c') := by
  simp [nodeEntry, -bind_pure_comp]

theorem nodeBody_ok {o : Option (List Statement)} :
    nodeBody nested s c = .ok o c' ↔
      (continuesWith .openBrace c.here = true ∧ ∃ entries c1,
          bracketed .openBrace [.comma] .closeBrace (nodeEntry nested) s c = .ok entries c1 ∧
          some entries = o ∧ c1 = c') ∨
        (continuesWith .openBrace c.here = false ∧ none = o ∧ c = c') := by
  simp [nodeBody, -bind_pure_comp]

theorem nodeDecl_ok {d : NodeDecl} :
    nodeDecl nested s c = .ok d c' ↔
      c.here.keyword? = some .nodeWord ∧ ∃ name c1, Parser.name s c.advance = .ok name c1 ∧
        ∃ props c2, bracketed .openParen [.comma] .closeParen property s c1 = .ok props c2 ∧
        ∃ body c3, nodeBody nested s c2 = .ok body c3 ∧
        ⟨name, props, body, c3.spanFrom c.here.start⟩ = d ∧ c3 = c' := by
  simp [nodeDecl, -bind_pure_comp]

theorem fieldDecl_ok {d : FieldDecl} :
    fieldDecl s c = .ok d c' ↔
      c.here.kind = .ident ∧ c.advance.here.kind = .colon ∧ ∃ type c1,
        typeRef s c.advance.advance = .ok type c1 ∧
        ⟨⟨c.here.text, c.here.span⟩, type, c1.spanFrom c.here.start⟩ = d ∧ c1 = c' := by
  simp [fieldDecl, ident, -bind_pure_comp]

theorem typeDecl_ok {d : TypeDecl} :
    typeDecl s c = .ok d c' ↔
      c.here.keyword? = some .typeWord ∧ c.advance.here.kind = .ident ∧ ∃ fields c1,
        bracketed .openBrace [.comma, .semicolon] .closeBrace fieldDecl s c.advance.advance =
          .ok fields c1 ∧
        ⟨⟨c.advance.here.text, c.advance.here.span⟩, fields, c1.spanFrom c.here.start⟩ = d ∧
        c1 = c' := by
  simp [typeDecl, ident, -bind_pure_comp]

theorem enumMember_ok {m : EnumMember} :
    enumMember nested s c = .ok m c' ↔
      c.here.kind = .ident ∧
        ((c.advance.here.kind = .assign ∧ ∃ value c1,
            nested.expr .group s c.advance.advance = .ok value c1 ∧
            ⟨⟨c.here.text, c.here.span⟩, some value, c1.spanFrom c.here.start⟩ = m ∧ c1 = c') ∨
          (c.advance.here.kind ≠ .assign ∧
            ⟨⟨c.here.text, c.here.span⟩, none, c.advance.spanFrom c.here.start⟩ = m ∧
            c.advance = c')) := by
  simp [enumMember, ident, -bind_pure_comp]

theorem enumDecl_ok {d : EnumDecl} :
    enumDecl nested s c = .ok d c' ↔
      c.here.keyword? = some .enumWord ∧ c.advance.here.kind = .ident ∧ ∃ members c1,
        bracketed .openBrace [.comma, .semicolon] .closeBrace (enumMember nested) s
          c.advance.advance = .ok members c1 ∧
        ⟨⟨c.advance.here.text, c.advance.here.span⟩, members, c1.spanFrom c.here.start⟩ = d ∧
        c1 = c' := by
  simp [enumDecl, ident, -bind_pure_comp]

/-- The keyword that introduces a statement at a token, given the token after it. -/
def leadWord (t : Token) (next : Option Token) : Option Keyword :=
  match t.keyword? with
  | none => none
  | some word =>
    match word with
    | .varWord | .letWord | .fnWord | .ifWord | .forWord | .whenWord | .breakWord => some word
    | .modWord | .useWord | .importWord | .nodeWord | .typeWord | .enumWord =>
      if (next.map (continuesWith .ident)).getD false then some word else none
    | .uiWord | .styleWord =>
      if (next.map (continuesWith .openBrace)).getD false then some word else none
    | _ => none

theorem statementWord?_bind {β : Type} {f : Option Keyword → Parser β} :
    (statementWord? >>= f) s c = f (leadWord c.here c.next?) s c := by
  apply bind_of_ok
  rw [statementWord?, keyword?_bind, leadWord]
  cases c.here.keyword? with
  | none => rfl
  | some word => cases word <;> rfl

theorem exprStatement_ok {k : StatementKind} :
    exprStatement nested s c = .ok k c' ↔ ∃ e c1, expr nested .group s c = .ok e c1 ∧
      ((c1.here.kind = .assign ∧ ∃ target, e.kind = .name target ∧ ∃ value c2,
          nested.value .group s c1.advance = .ok value c2 ∧ .assign target value = k ∧ c2 = c') ∨
        (c1.here.kind ≠ .assign ∧ .expr e = k ∧ c1 = c')) := by
  rw [exprStatement, bind_ok]
  refine exists_congr fun e => exists_congr fun c1 => and_congr_right fun _ => ?_
  obtain ⟨kind, span⟩ := e
  cases kind <;> simp [-bind_pure_comp]

theorem modDecl_ok {k : StatementKind} :
    modDecl nested s c = .ok k c' ↔ ∃ name c1, Parser.name s c.advance = .ok name c1 ∧
      ∃ body c2, block nested s c1 = .ok body c2 ∧ .modDecl name body = k ∧ c2 = c' := by
  simp [modDecl, -bind_pure_comp]

theorem statement_ok {st : Statement} :
    statement nested s c = .ok st c' ↔ ∃ kind c1, statementKind nested s c = .ok kind c1 ∧
      ⟨kind, c1.spanFrom c.here.start⟩ = st ∧ c1 = c' := by
  simp [statement, -bind_pure_comp]

theorem programWithin_ok {p : Program} :
    programWithin nested s c = .ok p c' ↔ ∃ statements,
      separated [.semicolon] .endOfText nested.statement ⟨.expectValue, true⟩ c =
        .ok statements c' ∧ ⟨statements, ⟨0, max c'.here.stop c.here.start⟩⟩ = p := by
  simp [programWithin, -bind_pure_comp]

end Parser

end Script
