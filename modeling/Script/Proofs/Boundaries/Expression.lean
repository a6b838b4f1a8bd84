import Script.Proofs.Boundaries.Parsers
import Script.Proofs.Lexing.Broken

/-!
The positions that literals and expressions report. The holes of a literal stand inside it, so what
is wrong with one of them is found between its characters.
-/
namespace Script

open Chars

variable {P : Nat → Prop} {t : Token}

section Lexing

/-- Where the characters of a text begin and end, so do its tokens and its error. -/
theorem Lexed.on {base : Nat} {text : String} (h : Chars.On P base text.toList) :
    (∀ t ∈ (Lexed.ofString base text).tokens, t.On P) ∧
      (∀ last, (Lexed.ofString base text).last = .ok last → last.On P) ∧
      ∀ e, (Lexed.ofString base text).last = .error e → e.span.On P := by
  obtain ⟨pre, rest, after, htext, hscans, hstops⟩ := Lexed.scans base text
  rw [htext] at h
  have hpos := h pre rest rfl
  generalize (Lexed.ofString base text).last = last at hstops
  refine ⟨fun t ht => ?_, fun t ht => ?_, fun e he => ?_⟩
  · obtain ⟨⟨a, b, rfl, hstart⟩, hread⟩ := hscans.mem ht
    refine ⟨?_, fun hk => ?_⟩
    · rw [hstart]
      refine Chars.On.middle (c := b ++ rest) ?_
      simpa using h
    · obtain ⟨form, ho, -⟩ := hread.string hk
      exact ⟨form, ho⟩
  · subst ht
    cases hstops with
    | done => exact Token.on_endAt hpos after
  · subst he
    cases hstops with
    | @error c cs misfit hc hs =>
      have hmiddle : Chars.On P (base + byteLength pre) ((c :: cs).take misfit.length) := by
        refine Chars.On.middle (c := (c :: cs).drop misfit.length) ?_
        rwa [List.take_append_drop]
      exact hmiddle.span

theorem RawHole.Within.on {hole : RawHole} {pos : Nat} {cs : List Char} (h : hole.Within pos cs)
    (hcs : Chars.On P pos cs) : Chars.On P hole.start hole.text.toList := by
  obtain ⟨pre, post, rfl, hstart⟩ := h
  rw [hstart]
  exact hcs.middle

theorem RawHole.read_error {dollar : Nat} {cs : List Char} {e : LexError}
    (h : RawHole.read dollar cs = .error e) : e.span = ⟨dollar, dollar + 1⟩ := by
  unfold RawHole.read at h
  split at h <;> split at h <;> cases h <;> rfl

theorem Piece.atoms_error {form : StringForm} {skip pos : Nat} {cs : List Char} {e : LexError}
    (h : atoms form skip pos cs = .error e) (hcs : Chars.On P pos cs) : e.span.On P := by
  fun_induction atoms form skip pos cs with
  | case1 => cases h
  | case2 pos c cs k ih => exact ih h hcs.tail
  | case3 pos c hc =>
    obtain rfl : c = '\\' := by simpa using ((Bool.and_eq_true _ _).mp hc).1
    obtain rfl := Except.error.inj h
    exact hcs.span
  | case4 pos c hc d rest x hx ih =>
    obtain rfl : c = '\\' := by simpa using ((Bool.and_eq_true _ _).mp hc).1
    exact ih (map_eq_error.1 h) hcs.tail.tail
  | case5 pos c hc d rest hx =>
    obtain rfl : c = '\\' := by simpa using ((Bool.and_eq_true _ _).mp hc).1
    obtain rfl := Except.error.inj h
    exact ⟨hcs.start, hcs.tail.tail.start, by dsimp only; omega⟩
  | case6 pos c cs hc hd x hread =>
    obtain rfl : c = '$' := by simpa using ((Bool.and_eq_true _ _).mp hd).1
    obtain rfl := Except.error.inj h
    rw [RawHole.read_error hread]
    exact ⟨hcs.start, hcs.tail.start, Nat.le_succ pos⟩
  | case7 pos c cs hc hd x n hread ih =>
    obtain rfl : c = '$' := by simpa using ((Bool.and_eq_true _ _).mp hd).1
    exact ih (map_eq_error.1 h) hcs.tail
  | case8 pos c cs hc hd ih => exact ih (map_eq_error.1 h) hcs.tail

theorem decode_error {literal : String} {start : Nat} {form : StringForm} {e : LexError}
    (ho : StringForm.opening? literal.toList = some form) (h : decode literal start = .error e)
    (hl : Chars.On P start literal.toList) : e.span.On P := by
  unfold decode at h
  rw [ho, Option.getD_some] at h
  dsimp only at h
  obtain ⟨post, hliteral⟩ := StringForm.body_split (StringForm.opening?_isPrefix ho)
  rw [hliteral] at hl
  split at h
  · cases h
  · rename_i e' he
    obtain rfl := Except.error.inj h
    exact Piece.atoms_error he hl.middle

end Lexing

namespace Parser

variable {nested : Nested} {α : Type} {Q : α → Prop}

theorem inHole_on {p : Parser α} {h : RawHole} {e : ParseError} (hp : On P Q p)
    (ht : Chars.On P h.start h.text.toList) (he : inHole h p = .error e) : e.span.On P := by
  obtain ⟨htokens, hlast, herror⟩ := Lexed.on ht
  unfold inHole at he
  dsimp only at he
  split at he
  · rename_i x hx
    obtain rfl := Except.error.inj he
    exact herror x hx
  · rename_i last hx
    have hwhole : On P Q (do
        let a ← p
        let _ ← token .endOfText
        return a) := hp.bind fun a ha => (on_token _).bind fun _ _ => .pure ha
    have hon := hwhole ⟨.expectValue, true⟩ _ (Cursor.On.start htokens (hlast last hx))
    split at he
    · cases he
    · rename_i x c' hrun
      obtain rfl := Except.error.inj he
      rw [hrun] at hon
      cases hon with
      | error hx => exact hx

theorem part_on (hn : nested.On P) {x : Piece} {e : ParseError} (he : part nested x = .error e)
    (hx : ∀ h, x = .hole h → Chars.On P h.start h.text.toList) : e.span.On P := by
  cases x with
  | text s => cases he
  | hole h =>
    rw [part, hole] at he
    cases hk : h.kind with
    | name =>
      rw [hk] at he
      exact inHole_on on_name (hx h rfl) (map_eq_error.1 he)
    | expr =>
      rw [hk] at he
      exact inHole_on ((hn.value .group).within _ _) (hx h rfl) (map_eq_error.1 he)

theorem parts_on (hn : nested.On P) {xs : List Piece} {e : ParseError}
    (he : xs.mapM (part nested) = .error e)
    (hxs : ∀ h, .hole h ∈ xs → Chars.On P h.start h.text.toList) : e.span.On P := by
  induction xs with
  | nil => cases he
  | cons x xs ih =>
    rw [List.mapM_cons] at he
    cases hx : part nested x with
    | error x' =>
      rw [hx] at he
      obtain rfl := Except.error.inj he
      exact part_on hn hx fun h hh => hxs h (by simp [hh])
    | ok y =>
      rw [hx] at he
      exact ih (map_eq_error.1 he) fun h hh => hxs h (by simp [hh])

theorem literalOf_on (hn : nested.On P) {e : ParseError} (ht : t.On P)
    (hk : t.kind.isString = true) (he : literalOf nested t = .error e) : e.span.On P := by
  obtain ⟨form, ho⟩ := ht.string hk
  unfold literalOf at he
  split at he
  · rename_i x hx
    obtain rfl := Except.error.inj he
    have hspan := decode_error ho hx ht.text
    unfold LexError.inLiteral
    split <;> exact hspan
  · rename_i d hd
    split at he
    · rename_i x hx
      obtain rfl := Except.error.inj he
      exact parts_on hn hx fun h hh => (decode_within ho hd hh).on ht.text
    · cases he

/-- A literal reports positions inside it. -/
theorem stringLiteral_on (hn : nested.On P) {s : Surroundings} {c : Cursor} (hc : c.On P)
    (hk : c.here.kind.isString = true) :
    (stringLiteral nested s c).On P fun _ => True := by
  rw [stringLiteral, advance_bind]
  cases hl : literalOf nested c.here with
  | ok l => exact .ok trivial hc.advance
  | error e => exact .error (literalOf_on hn hc.here hk hl)

section Expressions

variable (hn : nested.On P)
include hn

theorem on_block : On P (fun _ => True) (block nested) :=
  on_position.bind fun _ hi => (on_bracketed _ _ _ hn.statement).bind fun _ _ =>
    (on_spanFrom hi).bind fun _ _ => .pure trivial

theorem on_arguments : On P (fun _ => True) (arguments nested) :=
  on_bracketed _ _ _ (hn.expr .group)

omit hn in
theorem on_named : On P (fun e => e.span.On P) named := on_name.bind fun _ h => .pure h

omit hn in
theorem on_wordOperand (ht : t.On P) : On P (fun e => e.span.On P) (wordOperand t) := by
  rw [wordOperand]
  split
  · exact on_named
  · split
    · exact on_advance.bind fun _ _ => .pure ht.span
    · split
      · exact on_named
      · exact on_unexpected _

theorem on_group : On P (fun e => e.span.On P) (group nested) :=
  on_position.bind fun _ hi => (on_token _).bind fun _ _ =>
    ((hn.expr .group).within _ _).bind fun _ _ => (on_token _).bind fun _ _ =>
      (on_spanFrom hi).bind fun _ h => .pure h

theorem on_array : On P (fun e => e.span.On P) (array nested) :=
  on_position.bind fun _ hi => (on_bracketed _ _ _ (hn.value .group)).bind fun _ _ =>
    (on_spanFrom hi).bind fun _ h => .pure h

theorem on_object : On P (fun e => e.span.On P) (object nested) :=
  on_position.bind fun _ hi => (on_bracketed _ _ _ hn.statement).bind fun _ _ =>
    (on_spanFrom hi).bind fun _ h => .pure h

theorem on_unary (op : UnaryOp) : On P (fun e => e.span.On P) (unary nested op) :=
  on_advance.bind fun _ ht => (hn.expr .unary).bind fun _ he => .pure (ht.span.cover he)

theorem on_operand : On P (fun e => e.span.On P) (operand nested) := by
  intro s c hc
  have hstring : c.here.kind.isString = true → ((do
      let literal ← stringLiteral nested
      return ⟨.literal (.string literal), c.here.span⟩ : Parser Expr) s c).On P
        (fun e => e.span.On P) := by
    intro hk
    have hl := stringLiteral_on hn (s := s) hc hk
    rw [bind_apply]
    generalize stringLiteral nested s c = o at hl
    cases hl with
    | ok _ hc' => exact .ok hc.here.span hc'
    | error he => exact .error he
  rw [operand, here_bind]
  cases UnaryOp.ofKind? c.here.kind with
  | some op => exact on_unary hn op s c hc
  | none =>
    cases hk : c.here.kind with
    | ident => exact on_wordOperand hc.here s c hc
    | dot => exact on_named s c hc
    | number kind => exact .ok hc.here.span hc.advance
    | plainString => exact hstring (by rw [hk]; rfl)
    | rawString => exact hstring (by rw [hk]; rfl)
    | formattedString => exact hstring (by rw [hk]; rfl)
    | openParen => exact on_group hn s c hc
    | openBracket => exact on_array hn s c hc
    | openBrace =>
      dsimp only
      rw [surroundings_bind, ite_apply]
      split
      · exact on_object hn s c hc
      · exact .error hc.here.span
    | _ => exact .error hc.here.span

theorem on_pair {left : Expr} (hl : left.span.On P) : On P (fun e => e.span.On P) (pair nested left) := by
  rw [pair]
  split
  · exact on_fail hl _
  · exact on_advance.bind fun _ _ => (hn.value .transition).bind fun _ hv => .pure (hl.cover hv)

omit hn in
theorem on_transition {left : Expr} (hl : left.span.On P) :
    On P (fun e => e.span.On P) (transition left) := by
  rw [transition]
  split
  · refine on_advance.bind fun _ _ => on_look.bind fun b _ => ?_
    split
    · exact on_name.bind fun _ h => .pure (hl.cover h)
    · exact on_here.bind fun _ ht => on_fail ht.span _
  · exact on_fail hl _

theorem on_call {callee : Expr} (hl : callee.span.On P) :
    On P (fun e => e.span.On P) (call nested callee) := by
  have htrailing : On P (fun _ => True) (trailingBlock nested) := by
    refine on_here.bind fun t _ => on_look.bind fun s _ => ?_
    dsimp only
    split
    · exact (on_block hn).bind fun _ _ => .pure trivial
    · exact .pure trivial
  exact (on_arguments hn).bind fun _ _ => htrailing.bind fun _ _ =>
    (on_spanFrom hl.start).bind fun _ h => .pure h

theorem on_extend {left : Expr} (hl : left.span.On P) (o : Operator) :
    On P (fun e => e.span.On P) (extend nested left o) := by
  rw [extend]
  split
  · exact on_advance.bind fun _ _ => (hn.expr _).bind fun _ h => .pure (hl.cover h)
  · exact on_advance.bind fun _ _ => (hn.expr _).bind fun _ h => .pure (hl.cover h)
  · exact on_pair hn hl
  · exact on_transition hl
  · exact on_call hn hl

theorem on_climb (min : Strength) {left : Expr} (hl : left.span.On P) :
    On P (fun o => ∀ e ∈ o, e.span.On P) (climb nested min left) := by
  refine on_here.bind fun t _ => on_look.bind fun s _ => ?_
  split
  · exact .pure (by simp)
  split
  · exact .pure (by simp)
  split
  · exact .pure (by simp)
  · exact (on_extend hn hl _).bind fun e he => .pure (by simpa using he)

theorem on_expr (min : Strength) : On P (fun e => e.span.On P) (expr nested min) :=
  (on_operand hn).bind fun _ h => on_iterate (fun _ hl => on_climb hn min hl) h

end Expressions

end Parser

end Script
