import Script.Proofs.Printed.Literals
import Script.Proofs.Printed.Names
import Script.Proofs.Precedence
import Script.Tree.Layout

/-!
Expressions that are written back, built up from their operands. An operand needs to be as strong as
its place asks for, and to end before the operator that follows it.
-/
namespace Script

open Chars Chunk

/-- Items with commas between them, up to the bracket that closes their list. -/
theorem ListWritten.printed {α : Type} {erase : α → α} {item : List Char → α → List Chunk}
    {separators : List TokenKind} {close : TokenKind} {written : α → List Token → Prop}
    {ends : List Token → α → Prop} {as : List α} (hcomma : .comma ∈ separators)
    (hclose : close ∉ separators)
    (hitem : ∀ a ∈ as, ∀ gap pos, ∃ b, erase b = erase a ∧ written b (place pos (item gap a)))
    (hends : ∀ a ∈ as, ∀ b, erase b = erase a → ∀ t ts, t.kind = .comma ∨ t.kind = close →
      ends (t :: ts) b) (pos : Nat) :
    ∃ bs : List α, bs.map erase = as.map erase ∧ ListWritten separators close written ends bs
      (place pos (commaSeparated item as ++ [symbol [] close])) := by
  have hmore : ∀ (as : List α) (a : α) (gap : List Char) (pos : Nat),
      (∀ x ∈ a :: as, ∀ gap pos, ∃ b, erase b = erase x ∧ written b (place pos (item gap x))) →
      (∀ x ∈ a :: as, ∀ b, erase b = erase x → ∀ t ts, t.kind = .comma ∨ t.kind = close →
        ends (t :: ts) b) →
      ∃ bs : List α, bs.map erase = (a :: as).map erase ∧ ListWritten separators close written ends bs
        (place pos (item gap a ++ (as.flatMap (fun b => symbol [] .comma :: item [' '] b) ++
          [symbol [] close]))) := by
    intro as
    induction as with
    | nil =>
      intro a gap pos hitem hends
      obtain ⟨b, hb, hw⟩ := hitem a (by simp) gap pos
      rw [place_append]
      exact ⟨[b], by simp [hb],
        .unseparated hw (hends a (by simp) b hb _ _ (.inr rfl)) hclose (.inl rfl) (.done rfl)⟩
    | cons a' as ih =>
      intro a gap pos hitem hends
      obtain ⟨b, hb, hw⟩ := hitem a (by simp) gap pos
      obtain ⟨bs, hbs, hws⟩ := ih a' [' '] _ (fun x hx => hitem x (.tail _ hx))
        fun x hx => hends x (.tail _ hx)
      rw [place_append, List.flatMap_cons, List.cons_append, List.cons_append, place_cons,
        List.append_assoc]
      exact ⟨b :: bs, by simp [hb, hbs],
        .separated hw (hends a (by simp) b hb _ _ (.inl rfl)) hcomma hws⟩
  cases as with
  | nil => exact ⟨[], rfl, .done rfl⟩
  | cons a as =>
    rw [commaSeparated, List.append_assoc]
    exact hmore as a [] pos hitem hends

theorem Expr.chunksItems_eq (lit : Nat → StringLiteral → String) (indent : Nat) (es : List Expr) :
    Expr.chunksItems lit indent es = commaSeparated (fun gap e => e.chunks lit gap indent) es := by
  have hmore : ∀ es : List Expr, Expr.chunksMore lit indent es =
      es.flatMap fun e => symbol [] .comma :: e.chunks lit [' '] indent := by
    intro es
    induction es with
    | nil => simp only [Expr.chunksMore, List.flatMap_nil]
    | cons e es ih => rw [Expr.chunksMore, ih, List.flatMap_cons]
  cases es with
  | nil => simp only [Expr.chunksItems, commaSeparated]
  | cons e es => rw [Expr.chunksItems, hmore, commaSeparated]

namespace Expr

/-- An expression whose printed form is written as it is. -/
abbrev Printed (written : Expr → List Token → Prop) (e : Expr) : Prop :=
  Script.Printed Expr.erase (fun gap indent e => e.chunks StringLiteral.print gap indent) written e

/-- An expression ends before an operator on its line. -/
def EndsBeforeSign (s : Surroundings) (k : TokenKind) (e : Expr) : Prop :=
  ∀ t ts, t.kind = k → t.newlineBefore = false → e.EndsBefore s (t :: ts)

theorem erase_def : Expr.erase = Expr.mapSpans fun _ => default := rfl

/-- Where an expression ends is not changed by writing it back. -/
theorem endsBefore_of_erase {e e' : Expr} {s : Surroundings} {r : List Token}
    (h : e'.erase = e.erase) : e'.EndsBefore s r ↔ e.EndsBefore s r := by
  rw [← e.endsBefore_mapSpans (f := fun _ => default), ← e'.endsBefore_mapSpans (f := fun _ => default)]
  exact Iff.of_eq (congrArg (fun x => Expr.EndsBefore s r x) h)

end Expr

section Closure

variable {rules : Rules} {s : Surroundings} {min : Strength} {span : Span}

theorem UnaryOp.symbolText_kind (op : UnaryOp) : op.kind.symbolText? = some op.symbol := by
  cases op <;> rfl

theorem BinaryOp.symbolText_kind (op : BinaryOp) : op.kind.symbolText? = some op.symbol := by
  cases op <;> rfl

theorem CompareOp.symbolText_kind (op : CompareOp) : op.kind.symbolText? = some op.symbol := by
  cases op <;> rfl

theorem UnaryOp.ofKind?_kind (op : UnaryOp) : UnaryOp.ofKind? op.kind = some op := by
  cases op <;> rfl

theorem BinaryOp.operator_kind (op : BinaryOp) :
    Operator.ofKind? op.kind = some ⟨op.strength, .left, .binary op⟩ := by
  cases op <;> rfl

theorem CompareOp.operator_kind (op : CompareOp) :
    Operator.ofKind? op.kind = some ⟨.comparison, .left, .compare op⟩ := by
  cases op <;> rfl

/-- An operator with a blank or nothing before it goes on with what stands on its left. -/
theorem applies_symbol {k : TokenKind} {o : Operator} {gap : List Char} {pos : Nat}
    (hgap : '\n' ∉ gap) (ho : Operator.ofKind? k = some o) (hmin : min ≤ o.strength) :
    Applies s min ((symbol gap k).token pos) o :=
  ⟨by simp [Chunk.token, symbol, hgap], ho, Strength.not_lt.2 hmin⟩

/-- A name that may stand where an operand does: it begins with no word that has another meaning
there. -/
def Name.Free (n : Name) : Prop :=
  n.relative = true ∨ ∀ i ∈ n.segments.head?, ∀ w, Keyword.ofText? i.text = some w →
    Parser.literalWord? w = none ∧ w.isSoft = true

theorem Name.Free.head {n : Name} (h : n.Free) (gap : List Char) (pos : Nat)
    (hn : n.segments ≠ []) :
    ∀ t ∈ (place pos (n.chunks gap)).head?, ∀ w, t.keyword? = some w →
      Parser.literalWord? w = none ∧ w.isSoft = true := by
  intro t ht w hw
  obtain ⟨relative, segments, span⟩ := n
  cases segments with
  | nil => exact absurd rfl hn
  | cons i is =>
    cases relative with
    | true =>
      obtain rfl := Option.some.inj ht
      cases hw
    | false =>
      obtain rfl := Option.some.inj ht
      exact h.resolve_left Bool.false_ne_true i rfl w hw

/-- A comma and a closing bracket delimit. -/
theorem delimits_of {t : Token} {close : TokenKind} (ht : t.kind = .comma ∨ t.kind = close)
    (hclose : Delimits close) : Delimits t.kind := by
  rcases ht with ht | ht <;> rw [ht]
  · decide
  · exact hclose

namespace Expr

theorem printed_name {n : Name} (hn : n.segments ≠ [])
    (h : ∀ i ∈ n.segments, Word.Readable ⟨.ident, i.text⟩) (hfree : n.Free) :
    Expr.Printed (Expr.Written rules s min) ⟨.name n, span⟩ := by
  have hname := Name.printed hn h
  refine ⟨fun gap indent pos => ?_, fun gap indent => ?_⟩
  · simp only [Expr.chunks, ExprKind.chunks]
    obtain ⟨m, hm, hw⟩ := hname.written gap indent pos
    refine ⟨_, ?_, .operand (.name ⟨hw, hfree.head gap pos hn⟩)⟩
    simp_all [Expr.erase_def, Expr.mapSpans, ExprKind.mapSpans, Name.erase]
  · simp only [Expr.chunks, ExprKind.chunks]
    exact hname.readable gap indent

theorem printed_number {kind : NumberKind} {raw : String} (h : Word.Readable ⟨.number kind, raw⟩) :
    Expr.Printed (Expr.Written rules s min) ⟨.literal (.number kind raw), span⟩ := by
  refine ⟨fun gap indent pos => ?_, fun gap indent => ?_⟩
  · simp only [Expr.chunks, ExprKind.chunks, Literal.chunk, place_cons]
    refine ⟨_, ?_, .operand (.number rfl)⟩
    simp [Expr.erase_def, Expr.mapSpans, ExprKind.mapSpans, Literal.mapSpans, Chunk.token]
  · simp only [Expr.chunks, ExprKind.chunks, Literal.chunk, List.forall_mem_singleton]
    exact h

/-- A literal that is a word. -/
theorem printed_word {word : Keyword} {literal : Literal}
    (h : Parser.literalWord? word = some literal) :
    Expr.Printed (Expr.Written rules s min) ⟨.literal literal, span⟩ := by
  have hchunk : ∀ gap indent, literal.chunk StringLiteral.print gap indent = keyword gap word := by
    intro gap indent
    cases word <;> cases h <;> simp only [Literal.chunk]
  refine ⟨fun gap indent pos => ?_, fun gap indent => ?_⟩
  · simp only [Expr.chunks, ExprKind.chunks, hchunk, place_cons]
    refine ⟨_, ?_, .operand (.word (token_keyword _ _ _) h)⟩
    simp [Expr.erase_def, Expr.mapSpans, ExprKind.mapSpans]
  · simp only [Expr.chunks, ExprKind.chunks, hchunk, List.forall_mem_singleton]
    exact Word.readable_keyword word

theorem printed_string {l : StringLiteral}
    (hw : ∀ gap indent pos, ∃ l' : StringLiteral,
      (l'.mapSpans fun _ => default) = (l.mapSpans fun _ => default) ∧
      l'.Written rules ((l.chunk StringLiteral.print gap indent).token pos))
    (hr : ∀ gap indent, (l.chunk StringLiteral.print gap indent).word.Readable) :
    Expr.Printed (Expr.Written rules s min) ⟨.literal (.string l), span⟩ := by
  refine ⟨fun gap indent pos => ?_, fun gap indent => ?_⟩
  · simp only [Expr.chunks, ExprKind.chunks, Literal.chunk, place_cons]
    obtain ⟨l', hl, hw⟩ := hw gap indent pos
    have hkind : ((l.chunk StringLiteral.print gap indent).token pos).kind.isString = true := by
      simp only [StringLiteral.chunk, Chunk.token]
      cases l.form <;> rfl
    refine ⟨_, ?_, .operand (.string hkind hw)⟩
    simp_all [Expr.erase_def, Expr.mapSpans, ExprKind.mapSpans, Literal.mapSpans]
  · simp only [Expr.chunks, ExprKind.chunks, Literal.chunk, List.forall_mem_singleton]
    exact hr gap indent

theorem printed_unary {op : UnaryOp} {operand : Expr}
    (ho : operand.Printed (rules.expr s .unary)) :
    Expr.Printed (Expr.Written rules s min) ⟨.unary op operand, span⟩ := by
  refine ⟨fun gap indent pos => ?_, fun gap indent => ?_⟩
  · simp only [Expr.chunks, ExprKind.chunks, place_cons]
    obtain ⟨e, he, hw⟩ := ho.written [] indent _
    refine ⟨_, ?_, .operand (.unary op.ofKind?_kind hw)⟩
    simp_all [Expr.erase_def, Expr.mapSpans, ExprKind.mapSpans]
  · simp only [Expr.chunks, ExprKind.chunks, List.forall_mem_cons]
    exact ⟨Word.readable_symbol op.symbolText_kind, ho.readable [] indent⟩

theorem printed_binary {op : BinaryOp} {left right : Expr} (hmin : min ≤ op.strength)
    (hl : left.Printed (Expr.Written rules s min)) (hends : left.EndsBeforeSign s op.kind)
    (hr : right.Printed (rules.expr s (op.strength.rightMin .left))) :
    Expr.Printed (Expr.Written rules s min) ⟨.binary op .left left right, span⟩ := by
  refine ⟨fun gap indent pos => ?_, fun gap indent => ?_⟩
  · simp only [Expr.chunks, ExprKind.chunks, place_append, place_cons]
    obtain ⟨l, hle, hlw⟩ := hl.written gap indent pos
    obtain ⟨r, hre, hrw⟩ := hr.written [' '] indent _
    refine ⟨_, ?_, .extend hlw ((endsBefore_of_erase hle).2 (hends _ _ rfl rfl))
      (applies_symbol (by decide) op.operator_kind hmin) (.binary rfl hrw)⟩
    simp_all [Expr.erase_def, Expr.mapSpans, ExprKind.mapSpans]
  · simp only [Expr.chunks, ExprKind.chunks, List.forall_mem_append, List.forall_mem_cons]
    exact ⟨hl.readable gap indent, Word.readable_symbol op.symbolText_kind,
      hr.readable [' '] indent⟩

theorem printed_comparison {op : CompareOp} {left right : Expr} (hmin : min ≤ .comparison)
    (hl : left.Printed (Expr.Written rules s min)) (hends : left.EndsBeforeSign s op.kind)
    (hr : right.Printed (rules.expr s (Strength.comparison.rightMin .left))) :
    Expr.Printed (Expr.Written rules s min) ⟨.comparison op .left left right, span⟩ := by
  refine ⟨fun gap indent pos => ?_, fun gap indent => ?_⟩
  · simp only [Expr.chunks, ExprKind.chunks, place_append, place_cons]
    obtain ⟨l, hle, hlw⟩ := hl.written gap indent pos
    obtain ⟨r, hre, hrw⟩ := hr.written [' '] indent _
    refine ⟨_, ?_, .extend hlw ((endsBefore_of_erase hle).2 (hends _ _ rfl rfl))
      (applies_symbol (by decide) op.operator_kind hmin) (.comparison rfl hrw)⟩
    simp_all [Expr.erase_def, Expr.mapSpans, ExprKind.mapSpans]
  · simp only [Expr.chunks, ExprKind.chunks, List.forall_mem_append, List.forall_mem_cons]
    exact ⟨hl.readable gap indent, Word.readable_symbol op.symbolText_kind,
      hr.readable [' '] indent⟩

theorem printed_group {inner : Expr} (hi : inner.Printed (rules.expr .grouped .group)) :
    Expr.Printed (Expr.Written rules s min) ⟨.group inner, span⟩ := by
  refine ⟨fun gap indent pos => ?_, fun gap indent => ?_⟩
  · simp only [Expr.chunks, ExprKind.chunks, List.cons_append, place_append, place_cons]
    obtain ⟨e, he, hw⟩ := hi.written [] indent _
    refine ⟨_, ?_, .operand (.group rfl hw rfl)⟩
    simp_all [Expr.erase_def, Expr.mapSpans, ExprKind.mapSpans]
  · simp only [Expr.chunks, ExprKind.chunks, List.forall_mem_append, List.forall_mem_cons]
    exact ⟨⟨Word.readable_symbol rfl, hi.readable [] indent⟩, Word.readable_symbol rfl, by simp⟩

theorem readable_items {indent : Nat} {items : List Expr}
    (hi : ∀ e ∈ items, ∀ gap, ∀ ch ∈ e.chunks StringLiteral.print gap indent, ch.word.Readable) :
    ∀ ch ∈ Expr.chunksItems StringLiteral.print indent items, ch.word.Readable := by
  rw [Expr.chunksItems_eq]
  cases items with
  | nil => simp [commaSeparated]
  | cons e es =>
    rw [List.forall_mem_cons] at hi
    simp only [commaSeparated, List.forall_mem_append, List.forall_mem_flatMap,
      List.forall_mem_cons]
    exact ⟨hi.1 [], fun e he => ⟨Word.readable_symbol rfl, hi.2 e he [' ']⟩⟩

/-- The items of a list are written back, with the bracket that closes it. -/
theorem written_items {items : List Expr} (close : TokenKind) {written : Expr → List Token → Prop}
    {ends : List Token → Expr → Prop} (hclose : Delimits close ∧ close ≠ .comma)
    (hends : ∀ {r}, Final .item r → ∀ e, ends r e) (hi : ∀ e ∈ items, e.Printed written)
    (indent pos : Nat) :
    ∃ es : List Expr, es.map Expr.erase = items.map Expr.erase ∧
      ListWritten [.comma] close written ends es
        (place pos (Expr.chunksItems StringLiteral.print indent items ++ [symbol [] close])) := by
  rw [Expr.chunksItems_eq]
  exact ListWritten.printed (by decide) (by simpa using hclose.2)
    (fun e he gap pos => (hi e he).written gap indent pos)
    (fun _ _ e _ t ts ht => hends (delimits_of ht hclose.1).final e) pos

theorem printed_array {items : List Expr}
    (hi : ∀ e ∈ items, e.Printed (rules.value .item .group)) :
    Expr.Printed (Expr.Written rules s min) ⟨.array items, span⟩ := by
  refine ⟨fun gap indent pos => ?_, fun gap indent => ?_⟩
  · simp only [Expr.chunks, ExprKind.chunks, List.cons_append, place_cons]
    obtain ⟨es, hes, hw⟩ := written_items .closeBracket (by decide)
      (fun h e => h.closesValue e .group) hi indent _
    refine ⟨_, ?_, .operand (.array rfl hw)⟩
    simp_all [Expr.erase_def, Expr.mapSpans, ExprKind.mapSpans, Expr.mapSpansEach_eq]
  · simp only [Expr.chunks, ExprKind.chunks, List.forall_mem_append, List.forall_mem_cons]
    exact ⟨⟨Word.readable_symbol rfl, readable_items fun e he gap => (hi e he).readable gap indent⟩,
      Word.readable_symbol rfl, by simp⟩

theorem printed_call {callee : Expr} {args : List Expr}
    (hc : callee.Printed (Expr.Written rules s min)) (hends : callee.EndsBeforeSign s .openParen)
    (hmin : min ≤ .call) (ha : ∀ e ∈ args, e.Printed (rules.expr .item .group)) :
    Expr.Printed (Expr.Written rules s min) ⟨.call callee args none, span⟩ := by
  refine ⟨fun gap indent pos => ?_, fun gap indent => ?_⟩
  · simp only [Expr.chunks, ExprKind.chunks, Block.chunksTrailing, List.append_nil,
      List.append_assoc, List.cons_append]
    rw [place_append, place_cons]
    obtain ⟨c, hce, hcw⟩ := hc.written gap indent pos
    obtain ⟨es, hes, hw⟩ := written_items .closeParen (by decide)
      (fun h e => h.closes e .group) ha indent _
    have hcall : ∀ t, Expr.Extends rules s c ⟨.call, .right, .call⟩ (t :: (_ ++ []))
        ⟨.call c es none, Token.spanFrom c.span.start (t :: (_ ++ []))⟩ :=
      fun t => .call rfl hw .none
    simp only [List.append_nil] at hcall
    refine ⟨_, ?_, .extend hcw ((endsBefore_of_erase hce).2 (hends _ _ rfl rfl))
      (applies_symbol (by simp) rfl hmin) (hcall _)⟩
    simp_all [Expr.erase_def, Expr.mapSpans, ExprKind.mapSpans, Expr.mapSpansEach_eq,
      Block.mapSpansOption]
  · simp only [Expr.chunks, ExprKind.chunks, Block.chunksTrailing, List.append_nil,
      List.forall_mem_append, List.forall_mem_cons]
    exact ⟨⟨hc.readable gap indent, Word.readable_symbol rfl,
      readable_items fun e he gap => (ha e he).readable gap indent⟩, Word.readable_symbol rfl,
      by simp⟩

/-- The left side of a pair is written back as the key that it is. -/
theorem pairKey?_of_erase {e e' : Expr} {key : PairKey} (h : Parser.pairKey? e = some key)
    (he : e'.erase = e.erase) : ∃ key', Parser.pairKey? e' = some key' ∧
      (key'.mapSpans fun _ => default) = key.mapSpans fun _ => default := by
  have hkey := PairKey.mapSpans_eq (fun _ => default) h
  suffices hsome : ∃ key', Parser.pairKey? e' = some key' by
    obtain ⟨key', h'⟩ := hsome
    have hkey' := PairKey.mapSpans_eq (fun _ => default) h'
    rw [Expr.erase, Expr.erase] at he
    rw [he, hkey] at hkey'
    exact ⟨key', h', (Option.some.inj hkey').symm⟩
  obtain ⟨kind, span⟩ := e
  obtain ⟨kind', span'⟩ := e'
  have hkind : kind'.mapSpans (fun _ => default) = kind.mapSpans fun _ => default := by
    simpa [Expr.erase, Expr.mapSpans] using he
  unfold Parser.pairKey? at h
  split at h
  · rename_i n hk
    obtain rfl : kind = .name n := hk
    cases kind' <;> simp [ExprKind.mapSpans] at hkind
    exact ⟨_, rfl⟩
  · rename_i l hk
    obtain rfl : kind = .literal (.string l) := hk
    split at h
    · cases h
    · rename_i hform
      cases kind' <;> simp [ExprKind.mapSpans, Literal.mapSpans] at hkind
      rename_i l'
      cases l' <;> simp [Literal.mapSpans] at hkind
      rename_i l'
      obtain ⟨form, parts, span⟩ := l
      obtain ⟨form', parts', span'⟩ := l'
      simp only [StringLiteral.mapSpans, StringLiteral.mk.injEq] at hkind
      exact ⟨_, if_neg (hkind.1 ▸ hform)⟩
  · cases h

/-- The key of a pair has the chunks of the expression that it was read as. -/
theorem chunks_pairKey {e : Expr} {key : PairKey} (h : Parser.pairKey? e = some key)
    (lit : Nat → StringLiteral → String) (gap : List Char) (indent : Nat) :
    key.chunks lit gap indent = e.chunks lit gap indent := by
  obtain ⟨kind, span⟩ := e
  unfold Parser.pairKey? at h
  split at h
  · rename_i n hk
    obtain rfl : kind = .name n := hk
    cases h
    simp only [PairKey.chunks, Expr.chunks, ExprKind.chunks]
  · rename_i l hk
    obtain rfl : kind = .literal (.string l) := hk
    split at h
    · cases h
    · cases h
      simp only [PairKey.chunks, Expr.chunks, ExprKind.chunks, Literal.chunk]
  · cases h

/-- A key ends before its colon. -/
theorem pairKey_endsBefore {e : Expr} {key : PairKey} (h : Parser.pairKey? e = some key) :
    e.EndsBeforeSign s .colon := by
  intro t ts hk _
  obtain ⟨kind, span⟩ := e
  unfold Parser.pairKey? at h
  split at h
  · rename_i n hkind
    obtain rfl : kind = .name n := hkind
    exact not_continues (.inl (by rw [hk]; decide))
  · rename_i l hkind
    obtain rfl : kind = .literal (.string l) := hkind
    trivial
  · cases h

theorem printed_pair (left : Expr) {value : Expr} {key : PairKey} (hk : Parser.pairKey? left = some key)
    (hmin : min ≤ .pair) (hl : left.Printed (Expr.Written rules s min))
    (hv : value.Printed (rules.value s .transition)) :
    Expr.Printed (Expr.Written rules s min) ⟨.pair key value, span⟩ := by
  refine ⟨fun gap indent pos => ?_, fun gap indent => ?_⟩
  · simp only [Expr.chunks, ExprKind.chunks, chunks_pairKey hk, place_append, place_cons]
    obtain ⟨l, hle, hlw⟩ := hl.written gap indent pos
    obtain ⟨v, hve, hvw⟩ := hv.written [' '] indent _
    obtain ⟨key', hkey, hke⟩ := pairKey?_of_erase hk hle
    refine ⟨_, ?_, .extend hlw ((endsBefore_of_erase hle).2 (pairKey_endsBefore hk _ _ rfl rfl))
      (applies_symbol (by simp) rfl hmin) (.pair (o := ⟨.pair, .left, .pair⟩) rfl hkey hvw)⟩
    simp_all [Expr.erase_def, Expr.mapSpans, ExprKind.mapSpans]
  · simp only [Expr.chunks, ExprKind.chunks, chunks_pairKey hk, List.forall_mem_append,
      List.forall_mem_cons]
    exact ⟨hl.readable gap indent, Word.readable_symbol rfl, hv.readable [' '] indent⟩

theorem printed_transition {source target : Name} (hmin : min ≤ .transition)
    (hs : Expr.Printed (Expr.Written rules s min) ⟨.name source, span⟩)
    (ht : Script.Printed Name.erase (fun gap _ n => n.chunks gap) Name.Written target) :
    Expr.Printed (Expr.Written rules s min) ⟨.transition source target, span⟩ := by
  refine ⟨fun gap indent pos => ?_, fun gap indent => ?_⟩
  · simp only [Expr.chunks, ExprKind.chunks, place_append, place_cons]
    obtain ⟨⟨kind, sp⟩, hle, hlw⟩ := hs.written gap indent pos
    obtain ⟨n, hne, hnw⟩ := ht.written [' '] indent _
    simp only [Expr.chunks, ExprKind.chunks] at hlw
    cases kind <;> simp [Expr.erase, Expr.mapSpans, ExprKind.mapSpans] at hle
    refine ⟨_, ?_, .extend hlw (not_continues (.inl (by simp)))
      (applies_symbol (by decide) rfl hmin)
      (.transition (o := ⟨.transition, .left, .transition⟩) rfl rfl hnw)⟩
    simp_all [Expr.erase_def, Expr.mapSpans, ExprKind.mapSpans, Name.erase]
  · have hsource := hs.readable gap indent
    simp only [Expr.chunks, ExprKind.chunks, List.forall_mem_append, List.forall_mem_cons]
      at hsource ⊢
    exact ⟨hsource, Word.readable_symbol rfl, ht.readable [' '] indent⟩

end Expr

end Closure

end Script
