import Script.Rules.Follow

/-!
How far the end of a part depends on the tokens after it: only through the next token, and through
the one after it where an `else` may follow.
-/
namespace Script

variable {s : Surroundings} {r r' : List Token} {t : Token} {ts : List Token}

/-- Whatever goes on with an expression before `r'` also does before `r`. -/
structure Looser (s : Surroundings) (r r' : List Token) : Prop where
  dot : Continues .dot r' → Continues .dot r
  brace : s.brace = .expectValue → Continues .openBrace r' → Continues .openBrace r
  stops : ∀ min, Stops s min r → Stops s min r'
  atElse : AtElse r' → AtElse r

theorem Expr.EndsBefore.mono (h : Looser s r r') :
    ∀ {e : Expr}, e.EndsBefore s r → e.EndsBefore s r'
  | ⟨.name _, _⟩, he => fun hc => he (h.dot hc)
  | ⟨.transition _ _, _⟩, he => fun hc => he (h.dot hc)
  | ⟨.unary _ _, _⟩, he => ⟨mono h he.1, h.stops _ he.2⟩
  | ⟨.binary _ _ _ _, _⟩, he => ⟨mono h he.1, h.stops _ he.2⟩
  | ⟨.comparison _ _ _ _, _⟩, he => ⟨mono h he.1, h.stops _ he.2⟩
  | ⟨.call _ _ none, _⟩, he => fun hs hc => he hs (h.brace hs hc)
  | ⟨.call _ _ (some _), _⟩, _ => trivial
  | ⟨.pair _ _, _⟩, he => ⟨mono h he.1, fun hv => h.stops _ (he.2 hv)⟩
  | ⟨.ifExpr _, _⟩, he => fun hl ha => he hl (h.atElse ha)
  | ⟨.whenExpr _, _⟩, _ => trivial
  | ⟨.literal _, _⟩, _ => trivial
  | ⟨.group _, _⟩, _ => trivial
  | ⟨.object _, _⟩, _ => trivial
  | ⟨.array _, _⟩, _ => trivial

theorem Expr.Closes.mono (h : Looser s r r') {min : Strength} {e : Expr}
    (he : e.Closes s min r) : e.Closes s min r' :=
  ⟨he.ends.mono h, h.stops _ he.stops⟩

theorem Expr.ClosesValue.mono (h : Looser s r r') {min : Strength} {e : Expr}
    (he : e.ClosesValue s min r) : e.ClosesValue s min r' :=
  ⟨he.ends.mono h, fun hv => h.stops _ (he.stops hv)⟩

/-- Tokens before which every expression ends. -/
structure Final (s : Surroundings) (r : List Token) : Prop where
  dot : ¬ Continues .dot r
  brace : s.brace = .expectValue → ¬ Continues .openBrace r
  stops : ∀ min, Stops s min r
  atElse : ¬ AtElse r

theorem Final.ends (h : Final s r) : ∀ e : Expr, e.EndsBefore s r
  | ⟨.name _, _⟩ => h.dot
  | ⟨.transition _ _, _⟩ => h.dot
  | ⟨.unary _ operand, _⟩ => ⟨h.ends operand, h.stops _⟩
  | ⟨.binary _ _ _ right, _⟩ => ⟨h.ends right, h.stops _⟩
  | ⟨.comparison _ _ _ right, _⟩ => ⟨h.ends right, h.stops _⟩
  | ⟨.call _ _ none, _⟩ => h.brace
  | ⟨.call _ _ (some _), _⟩ => trivial
  | ⟨.pair _ value, _⟩ => ⟨h.ends value, fun _ => h.stops _⟩
  | ⟨.ifExpr _, _⟩ => fun _ => h.atElse
  | ⟨.whenExpr _, _⟩ => trivial
  | ⟨.literal _, _⟩ => trivial
  | ⟨.group _, _⟩ => trivial
  | ⟨.object _, _⟩ => trivial
  | ⟨.array _, _⟩ => trivial

theorem Final.closes (h : Final s r) (e : Expr) (min : Strength) : e.Closes s min r :=
  ⟨h.ends e, h.stops min⟩

theorem Final.closesValue (h : Final s r) (e : Expr) (min : Strength) : e.ClosesValue s min r :=
  ⟨h.ends e, fun _ => h.stops min⟩

theorem Continues.append {kind : TokenKind} (h : Continues kind r) (us : List Token) :
    Continues kind (r ++ us) := by
  obtain ⟨t, ht, hk⟩ := h
  cases r with
  | nil => cases ht
  | cons u r => exact ⟨t, ht, hk⟩

theorem not_continues {kind : TokenKind} (h : t.kind ≠ kind ∨ t.newlineBefore = true) :
    ¬ Continues kind (t :: ts) := by
  rintro ⟨u, hu, hk⟩
  obtain rfl := Option.some.inj hu
  simp only [Parser.continuesWith, Bool.and_eq_true, beq_iff_eq, Bool.not_eq_true'] at hk
  rcases h with h | h
  · exact h hk.1
  · simp [h] at hk

theorem not_atElse (h : t.kind ≠ .ident) : ¬ AtElse (t :: ts) := by
  rintro ⟨u, v, vs, hr, hu, -⟩
  obtain ⟨rfl, -⟩ := List.cons.inj hr
  simp [Token.keyword?, h] at hu

theorem stops_of_operator (h : Operator.ofKind? t.kind = none) (min : Strength) :
    Stops s min (t :: ts) := by
  intro u hu o ho
  obtain rfl := Option.some.inj hu
  simp [ho.operator] at h

theorem stops_of_break (hs : s.breakEnds = true) (h : t.newlineBefore = true) (min : Strength) :
    Stops s min (t :: ts) := by
  intro u hu o ho
  obtain rfl := Option.some.inj hu
  have hline := ho.sameLine
  simp [hs, h] at hline

/-- The kinds that separate the items of a list or close it. -/
def Delimits (k : TokenKind) : Prop :=
  k ∈ [.comma, .semicolon, .closeParen, .closeBrace, .closeBracket, .endOfText]

instance : DecidablePred Delimits := fun k =>
  inferInstanceAs (Decidable (k ∈ [.comma, .semicolon, .closeParen, .closeBrace, .closeBracket,
    .endOfText]))

theorem Delimits.final (h : Delimits t.kind) : Final s (t :: ts) := by
  simp only [Delimits, List.mem_cons, List.not_mem_nil, or_false] at h
  refine ⟨not_continues (.inl ?_), fun _ => not_continues (.inl ?_),
    stops_of_operator ?_, not_atElse ?_⟩ <;>
  rcases h with h | h | h | h | h | h <;> rw [h] <;> decide

/-- The brace of a block ends the head before it. -/
theorem final_of_brace (hs : s.brace = .expectBlock) (h : t.kind = .openBrace) :
    Final s (t :: ts) := by
  refine ⟨not_continues (.inl (by simp [h])), fun hv => ?_, stops_of_operator (by rw [h]; rfl),
    not_atElse (by simp [h])⟩
  simp [hs] at hv

theorem final_of_break (hs : s.breakEnds = true) (h : t.newlineBefore = true)
    (he : ¬ AtElse (t :: ts)) : Final s (t :: ts) :=
  ⟨not_continues (.inr h), fun _ => not_continues (.inr h), stops_of_break hs h, he⟩

theorem apart_of_break (h : t.newlineBefore = true) : Apart (t :: ts) :=
  ⟨not_continues (.inr h), not_continues (.inr h), not_continues (.inr h)⟩

theorem apart_of_kind (h : t.kind ≠ .dot ∧ t.kind ≠ .ident ∧ t.kind ≠ .openBrace) :
    Apart (t :: ts) :=
  ⟨not_continues (.inl h.1), not_continues (.inl h.2.1), not_continues (.inl h.2.2)⟩

theorem Delimits.apart (h : Delimits t.kind) : Apart (t :: ts) := by
  apply apart_of_kind
  simp only [Delimits, List.mem_cons, List.not_mem_nil, or_false] at h
  rcases h with h | h | h | h | h | h <;> simp [h]

/-- A place for a type ends before whatever is no point and no word on its line. -/
theorem Apart.annotated (h : Apart r) (o : Option TypeRef) : TypeRef.AnnotationEnds r o := by
  cases o with
  | none => exact h.ident
  | some t =>
    simp only [TypeRef.AnnotationEnds, TypeRef.EndsBefore]
    split
    · trivial
    · exact h.dot

/-- Tokens before which every statement ends. -/
structure EndsAll (s : Surroundings) (r : List Token) : Prop where
  final : Final s r
  apart : Apart r
  kind : ∀ t ∈ r.head?, t.kind ≠ .assign ∧ t.kind ≠ .comma
  colon : ¬ Continues .colon r
  paren : ¬ Continues .openParen r

theorem EndsAll.statement (h : EndsAll s r) (st : Statement) : st.EndsBefore s r := by
  obtain ⟨kind, span⟩ := st
  cases kind with
  | useDecl d =>
    refine ⟨h.final.dot, ?_⟩
    split
    · exact h.colon
    · exact fun t ht => (h.kind t ht).2
  | importDecl d => exact fun _ => ⟨h.final.dot, h.paren⟩
  | varDecl d => exact h.final.closesValue _ _
  | fnDecl d =>
    show d.body.EndsBefore s r
    cases d.body with
    | block => trivial
    | expr e => exact h.final.closes e _
  | nodeDecl d => exact fun _ => h.apart.brace
  | assign target value => exact h.final.closesValue _ _
  | ifStmt stmt => exact fun _ => h.final.atElse
  | expr e => exact ⟨h.final.closes e _, fun t ht => (h.kind t ht).1, h.apart⟩
  | _ => trivial

theorem Delimits.endsAll (h : Delimits t.kind) (hc : t.kind ≠ .comma) :
    EndsAll s (t :: ts) := by
  have hne : t.kind ≠ .assign ∧ t.kind ≠ .colon ∧ t.kind ≠ .openParen := by
    simp only [Delimits, List.mem_cons, List.not_mem_nil, or_false] at h
    rcases h with h | h | h | h | h | h <;> simp [h]
  refine ⟨h.final, h.apart, fun u hu => ?_, not_continues (.inl hne.2.1),
    not_continues (.inl hne.2.2)⟩
  obtain rfl := Option.some.inj hu
  exact ⟨hne.1, hc⟩

/-- Tokens `r'` that go on with a part of a program only if `r` does: their first token is one of
the same kind on the same line, and they begin with an `else` that belongs to an `if` only if `r`
does. -/
structure Alike (r r' : List Token) : Prop where
  head : ∀ t ∈ r'.head?, ∃ u ∈ r.head?, u.kind = t.kind ∧ u.newlineBefore = t.newlineBefore
  atElse : AtElse r' → AtElse r

theorem alike_append (hr : r ≠ []) (us : List Token) : Alike (r ++ us) r := by
  refine ⟨?_, ?_⟩
  · cases r with
    | nil => exact absurd rfl hr
    | cons t ts => exact fun u hu => ⟨u, hu, rfl, rfl⟩
  · rintro ⟨t, u, ts, rfl, ht, hu⟩
    exact ⟨t, u, ts ++ us, rfl, ht, hu⟩

/-- The front of some tokens does not change when more tokens follow, where it is more than one
token or no word. -/
theorem alike_extend (ts us : List Token) (hr : t.kind ≠ .ident ∨ ts ≠ []) :
    Alike (t :: ts) (t :: ts ++ us) := by
  refine ⟨fun u hu => ⟨u, hu, rfl, rfl⟩, ?_⟩
  rintro ⟨u, v, vs, hcons, hu, hv⟩
  cases ts with
  | nil =>
    obtain ⟨rfl, -⟩ := List.cons.inj hcons
    have hk : t.kind ≠ .ident := hr.resolve_right (fun h => h rfl)
    simp [Token.keyword?, hk] at hu
  | cons w ws =>
    simp only [List.cons_append, List.cons.injEq] at hcons
    obtain ⟨rfl, rfl, -⟩ := hcons
    exact ⟨t, w, ws, rfl, hu, hv⟩

namespace Alike

variable (h : Alike r r')
include h

theorem continues {kind : TokenKind} (hc : Continues kind r') : Continues kind r := by
  obtain ⟨t, ht, hk⟩ := hc
  obtain ⟨u, hu, hkind, hline⟩ := h.head t ht
  exact ⟨u, hu, by rwa [Parser.continuesWith, hkind, hline]⟩

theorem stops {min : Strength} (hs : Stops s min r) : Stops s min r' := by
  intro t ht o ho
  obtain ⟨u, hu, hkind, hline⟩ := h.head t ht
  exact hs u hu o ⟨hline ▸ ho.sameLine, hkind ▸ ho.operator, ho.strong⟩

theorem looser : Looser s r r' where
  dot := h.continues
  brace _ := h.continues
  stops _ := h.stops
  atElse := h.atElse

theorem kind {k : TokenKind} (hk : ∀ t ∈ r.head?, t.kind ≠ k) : ∀ t ∈ r'.head?, t.kind ≠ k := by
  intro t ht
  obtain ⟨u, hu, hkind, -⟩ := h.head t ht
  exact hkind ▸ hk u hu

theorem apart (ha : Apart r) : Apart r' :=
  ⟨fun hc => ha.dot (h.continues hc), fun hc => ha.ident (h.continues hc),
    fun hc => ha.brace (h.continues hc)⟩

theorem typeRef {t : TypeRef} (ht : t.EndsBefore r) : t.EndsBefore r' := by
  unfold TypeRef.EndsBefore at ht ⊢
  split
  · trivial
  · rename_i hk
    simp only [hk] at ht
    exact fun hc => ht (h.continues hc)

theorem annotated {o : Option TypeRef} (ho : TypeRef.AnnotationEnds r o) :
    TypeRef.AnnotationEnds r' o := by
  cases o with
  | none => exact fun hc => ho (h.continues hc)
  | some t => exact h.typeRef ho

theorem ifStmt {stmt : IfStmt} (hs : stmt.EndsBefore r) : stmt.EndsBefore r' :=
  fun hl ha => hs hl (h.atElse ha)

theorem useDecl {d : UseDecl} (hd : d.EndsBefore r) : d.EndsBefore r' := by
  refine ⟨fun hc => hd.1 (h.continues hc), ?_⟩
  have hd := hd.2
  split
  · rename_i hs
    simp only [hs, if_true] at hd
    exact fun hc => hd (h.continues hc)
  · rename_i hs
    simp only [hs] at hd
    exact h.kind hd

theorem fnBody {b : FnBody} (hb : b.EndsBefore s r) : b.EndsBefore s r' := by
  cases b with
  | block => trivial
  | expr e => exact Expr.Closes.mono h.looser hb

theorem exprStatement {e : Expr} (he : e.EndsStatement s r) : e.EndsStatement s r' :=
  ⟨he.closes.mono h.looser, h.kind he.assign, h.apart he.apart⟩

theorem statement {st : Statement} (hst : st.EndsBefore s r) : st.EndsBefore s r' := by
  obtain ⟨kind, span⟩ := st
  cases kind with
  | useDecl d => exact h.useDecl hst
  | importDecl d =>
    exact fun hn => ⟨fun hc => (hst hn).1 (h.continues hc), fun hc => (hst hn).2 (h.continues hc)⟩
  | varDecl d => exact Expr.ClosesValue.mono h.looser hst
  | fnDecl d => exact h.fnBody hst
  | nodeDecl d => exact fun hn hc => hst hn (h.continues hc)
  | assign target value => exact Expr.ClosesValue.mono h.looser hst
  | ifStmt stmt => exact h.ifStmt hst
  | expr e => exact h.exprStatement hst
  | _ => trivial

theorem entry {st : Statement} (hst : st.EntryEndsBefore s r) : st.EntryEndsBefore s r' := by
  obtain ⟨kind, span⟩ := st
  cases kind with
  | ifStmt stmt => exact h.ifStmt hst
  | expr e => exact Expr.Closes.mono h.looser hst
  | _ => trivial

theorem param {p : Param} (hp : p.EndsBefore r) : p.EndsBefore r' := h.annotated hp

theorem property {p : Property} (hp : p.EndsBefore r) : p.EndsBefore r' :=
  ⟨fun hn hc => hp.1 hn (h.continues hc), h.annotated hp.2⟩

theorem fieldDecl {d : FieldDecl} (hd : d.EndsBefore r) : d.EndsBefore r' := h.typeRef hd

theorem enumMember {m : EnumMember} (hm : m.EndsBefore s r) : m.EndsBefore s r' := by
  obtain ⟨name, value, span⟩ := m
  cases value with
  | none => exact h.kind hm
  | some value => exact Expr.Closes.mono h.looser hm

theorem caseBody {b : CaseBody} (hb : b.EndsBefore s r) : b.EndsBefore s r' := by
  cases b with
  | block => trivial
  | arrow st => exact h.statement hb

end Alike

end Script
