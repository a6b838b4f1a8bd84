import Script.Proofs.Lexing.Cuts
import Script.Proofs.Runs

/-!
The positions that a reading reports. Where all characters of the tokens at hand begin and end at
positions of some kind, so does every span that is made of them, and the span of every error. The
kind in mind is that of the boundaries between the characters of a source.
-/
namespace Script

open Chars

variable {P : Nat → Prop} {t : Token} {ts : List Token}

/-- A span between two positions of a kind, the first of which comes first. -/
structure Span.On (P : Nat → Prop) (s : Span) : Prop where
  start : P s.start
  stop : P s.stop
  le : s.start ≤ s.stop

theorem Span.On.cover {a b : Span} (ha : a.On P) (hb : b.On P) : (a.cover b).On P := by
  refine ⟨?_, ?_, ?_⟩
  · rcases Nat.le_total a.start b.start with h | h
    · rw [Span.cover, Nat.min_eq_left h]
      exact ha.start
    · rw [Span.cover, Nat.min_eq_right h]
      exact hb.start
  · rcases Nat.le_total a.stop b.stop with h | h
    · rw [Span.cover, Nat.max_eq_right h]
      exact hb.stop
    · rw [Span.cover, Nat.max_eq_left h]
      exact ha.stop
  · exact Nat.le_trans (Nat.min_le_left _ _) (Nat.le_trans ha.le (Nat.le_max_left _ _))

/-- A text at a byte position whose characters all begin and end at positions of a kind. -/
def Chars.On (P : Nat → Prop) (pos : Nat) (cs : List Char) : Prop :=
  ∀ pre post, cs = pre ++ post → P (pos + byteLength pre)

namespace Chars.On

variable {pos : Nat} {a b c : List Char}

theorem start (h : On P pos a) : P pos := h [] a rfl

theorem stop (h : On P pos a) : P (pos + byteLength a) := h a [] (by simp)

/-- The text between two others. -/
theorem middle (h : On P pos (a ++ (b ++ c))) : On P (pos + byteLength a) b := by
  rintro pre post rfl
  have hpre := h (a ++ pre) (post ++ c) (by simp)
  rwa [byteLength_append, ← Nat.add_assoc] at hpre

theorem tail {d : Char} (h : On P pos (d :: a)) : On P (pos + d.utf8Size) a := by
  have hmiddle := middle (a := [d]) (b := a) (c := []) (by simpa using h)
  simpa [byteLength] using hmiddle

theorem span (h : On P pos a) : Span.On P ⟨pos, pos + byteLength a⟩ :=
  ⟨h.start, h.stop, Nat.le_add_right _ _⟩

end Chars.On

/-- A token whose characters all begin and end at positions of a kind. If it is a string, then it
has the form of one, on which the positions of its holes depend. -/
structure Token.On (P : Nat → Prop) (t : Token) : Prop where
  text : Chars.On P t.start t.text.toList
  string : t.kind.isString = true → ∃ form, StringForm.opening? t.text.toList = some form

theorem Token.On.stop (h : t.On P) : P t.stop := by
  have hstop := h.text.stop
  rwa [byteLength_toList] at hstop

theorem Token.On.span (h : t.On P) : t.span.On P := ⟨h.text.start, h.stop, Nat.le_add_right _ _⟩

theorem Token.on_endAt {pos : Nat} (h : P pos) (newline : Bool) : (Token.endAt pos newline).On P where
  text := by
    intro pre post hpre
    obtain ⟨rfl, -⟩ := List.append_eq_nil_iff.1 hpre.symm
    exact h
  string hk := by cases hk

structure Cursor.On (P : Nat → Prop) (c : Cursor) : Prop where
  before : ∀ t ∈ c.before, t.On P
  rest : ∀ t ∈ c.rest, t.On P

namespace Cursor.On

variable {c : Cursor}

theorem here (h : c.On P) : c.here.On P := h.rest _ (by simp [Cursor.rest])

theorem lastStop (h : c.On P) : P c.lastStop := by
  rw [Cursor.lastStop]
  cases hb : c.before with
  | none => exact h.here.text.start
  | some t => exact (h.before t hb).stop

theorem spanFrom {i : Nat} (h : c.On P) (hi : P i) : (c.spanFrom i).On P := by
  refine ⟨hi, ?_, Nat.le_max_right _ _⟩
  rcases Nat.le_total c.lastStop i with hle | hle
  · rw [Cursor.spanFrom, Nat.max_eq_right hle]
    exact hi
  · rw [Cursor.spanFrom, Nat.max_eq_left hle]
    exact h.lastStop

theorem advance (h : c.On P) : c.advance.On P := by
  rw [Cursor.advance]
  cases ha : c.ahead with
  | nil => exact h
  | cons t ts =>
    refine ⟨fun u hu => ?_, fun u hu => h.rest u ?_⟩
    · obtain rfl := Option.some.inj hu
      exact h.here
    · rw [Cursor.rest, ha]
      exact List.mem_cons_of_mem _ hu

theorem start {last : Token} (ht : ∀ t ∈ ts, t.On P) (hl : last.On P) :
    (Cursor.start ts last).On P := by
  refine ⟨fun t h => ?_, fun t h => ?_⟩
  · cases ts <;> cases h
  · rw [Cursor.start_rest, List.mem_append, List.mem_singleton] at h
    rcases h with h | rfl
    · exact ht t h
    · exact hl

end Cursor.On

inductive Outcome.On {α : Type} (P : Nat → Prop) (Q : α → Prop) : Outcome α → Prop
  | ok {a : α} {c : Cursor} (h : Q a) (hc : c.On P) : On P Q (.ok a c)
  | error {e : ParseError} {c : Cursor} (h : e.span.On P) : On P Q (.error e c)

namespace Parser

variable {α β : Type} {Q : α → Prop} {R : β → Prop} {p : Parser α} {s : Surroundings} {c : Cursor}

/-- Where the tokens at hand stand at positions of a kind, so do the errors of the parser, and its
results have a property. -/
def On (P : Nat → Prop) (Q : α → Prop) (p : Parser α) : Prop :=
  ∀ s c, c.On P → (p s c).On P Q

section Combinators

theorem On.bind {f : α → Parser β} (h : On P Q p) (hf : ∀ a, Q a → On P R (f a)) :
    On P R (p >>= f) := by
  intro s c hc
  have hp := h s c hc
  rw [bind_apply]
  generalize p s c = o at hp
  cases hp with
  | ok ha hc' => exact hf _ ha _ _ hc'
  | error he => exact .error he

theorem On.pure {a : α} (h : Q a) : On P Q (Pure.pure a : Parser α) := fun _ _ hc => .ok h hc

theorem On.within (h : On P Q p) (brace : BraceContext) (breakEnds : Bool) :
    On P Q (Parser.within brace breakEnds p) := fun _ c hc => h _ c hc

theorem On.inHead (h : On P Q p) : On P Q (Parser.inHead p) := fun _ c hc => h _ c hc

theorem on_here : On P (Token.On P) here := fun _ _ hc => .ok hc.here hc

theorem on_position : On P P position := fun _ _ hc => .ok hc.here.text.start hc

theorem on_spanFrom {i : Nat} (hi : P i) : On P (Span.On P) (spanFrom i) :=
  fun _ _ hc => .ok (hc.spanFrom hi) hc

/-- What only looks at the cursor. -/
theorem on_look {f : Surroundings → Cursor → α} : On P (fun _ => True) fun s c => .ok (f s c) c :=
  fun _ _ hc => .ok trivial hc

theorem on_advance : On P (Token.On P) advance := fun _ _ hc => .ok hc.here hc.advance

theorem on_unexpected (x : Expected) : On P Q (unexpected x) := fun _ _ hc => .error hc.here.span

theorem on_fail {span : Span} (h : span.On P) (fault : ParseFault) : On P Q (fail fault span) :=
  fun _ _ _ => .error h

theorem on_token (k : TokenKind) : On P (Token.On P) (token k) := by
  refine on_look.bind fun b _ => ?_
  split
  · exact on_advance
  · exact on_unexpected _

theorem on_keyword (w : Keyword) : On P (Token.On P) (keyword w) := by
  refine on_look.bind fun b _ => ?_
  split
  · exact on_advance
  · exact on_unexpected _

theorem on_skip (k : TokenKind) : On P (fun _ => True) (skip k) := by
  refine on_look.bind fun b _ => ?_
  split
  · exact on_advance.bind fun _ _ => .pure trivial
  · exact .pure trivial

theorem on_collect {item : Parser (Option α)} (h : On P (fun _ => True) item) :
    On P (fun _ => True) (collect item) := by
  have hwithin : ∀ bound, On P (fun _ => True) (collectWithin item bound) := by
    intro bound
    induction bound with
    | nil => exact fun _ _ hc => .error hc.here.span
    | cons _ bound ih =>
      refine h.bind fun o _ => ?_
      split
      · exact .pure trivial
      · exact ih.bind fun _ _ => .pure trivial
  exact fun s c hc => hwithin c.rest s c hc

theorem on_iterate {step : α → Parser (Option α)}
    (h : ∀ a, Q a → On P (fun o => ∀ b ∈ o, Q b) (step a)) {a : α} (ha : Q a) :
    On P Q (iterate step a) := by
  have hwithin : ∀ bound a, Q a → On P Q (iterateWithin step bound a) := by
    intro bound
    induction bound with
    | nil => exact fun _ _ _ _ hc => .error hc.here.span
    | cons _ bound ih =>
      intro a ha
      refine (h a ha).bind fun o ho => ?_
      split
      · exact .pure ha
      · exact ih _ (ho _ rfl)
  exact fun s c hc => hwithin c.rest a ha s c hc

theorem on_separated (separators : List TokenKind) (close : TokenKind) (h : On P Q p) :
    On P (fun _ => True) (separated separators close p) := by
  refine on_collect (on_look.bind fun b _ => ?_)
  split
  · exact .pure trivial
  refine h.bind fun a _ => on_look.bind fun b _ => ?_
  split
  · exact on_advance.bind fun _ _ => .pure trivial
  refine on_look.bind fun b _ => ?_
  split
  · exact .pure trivial
  refine on_look.bind fun b _ => ?_
  split
  · exact .pure trivial
  · exact on_unexpected _

theorem on_bracketed (opener : TokenKind) (separators : List TokenKind) (close : TokenKind)
    (h : On P Q p) : On P (fun _ => True) (bracketed opener separators close p) :=
  (on_token _).bind fun _ _ => ((on_separated separators close h).within _ _).bind fun _ _ =>
    (on_token _).bind fun _ _ => .pure trivial

end Combinators

section Names

theorem on_ident : On P (fun _ => True) ident := (on_token _).bind fun _ _ => .pure trivial

theorem on_name : On P (fun n => n.span.On P) name := by
  refine on_position.bind fun i hi => (on_skip _).bind fun relative _ => on_ident.bind fun first _ => ?_
  have hsegment : On P (fun _ => True) segment := by
    refine on_here.bind fun t _ => on_look.bind fun b _ => ?_
    split
    · exact on_advance.bind fun _ _ => on_ident.bind fun _ _ => .pure trivial
    · exact .pure trivial
  exact (on_collect hsegment).bind fun others _ => (on_spanFrom hi).bind fun span h => .pure h

theorem on_typeRef : On P (fun _ => True) typeRef := by
  refine (on_here.bind fun _ _ => On.pure (Q := fun _ => True) trivial).bind fun o _ => ?_
  split
  · exact on_advance.bind fun _ _ => .pure trivial
  refine on_look.bind fun b _ => ?_
  split
  · exact on_name.bind fun _ _ => .pure trivial
  · exact on_unexpected _

theorem on_annotation : On P (fun _ => True) annotation := by
  refine on_here.bind fun t _ => ?_
  split
  · exact on_typeRef.bind fun _ _ => .pure trivial
  · exact .pure trivial

end Names

end Parser

/-- The parsers for what is nested inside a construct keep to positions of a kind. -/
structure Nested.On (P : Nat → Prop) (nested : Nested) : Prop where
  expr : ∀ min, Parser.On P (fun e => e.span.On P) (nested.expr min)
  value : ∀ min, Parser.On P (fun e => e.span.On P) (nested.value min)
  statement : Parser.On P (fun _ => True) nested.statement

end Script
