import Mathlib.Algebra.GroupWithZero.Nat
import Script.Proofs.Lexing.Broken
import Script.Proofs.Lexing.Holes
import Script.Proofs.Progress.Parsers

/-!
What literals and expressions take pays for the calls that they make. The holes of a literal are
read as texts of their own, and all of them together are shorter than the literal.
-/
namespace Script

open Chars

/-- The bytes of some holes with their dollar signs. -/
def RawHole.bytes (hs : List RawHole) : Nat := (hs.map fun h => h.text.utf8ByteSize + 1).sum

theorem RawHole.read_bytes {dollar n : Nat} {cs : List Char} {h : RawHole}
    (hr : RawHole.read dollar cs = .ok (h, n)) :
    h.text.utf8ByteSize ≤ byteLength (cs.take n) := by
  have hstop := RawHole.read_stop hr
  have hstart : dollar + 1 ≤ h.start := by
    obtain ⟨pre, post, -, hstart⟩ := RawHole.read_within hr
    omega
  simp only [RawHole.inner] at hstop
  omega

theorem Piece.atoms_bytes {form : StringForm} {skip pos : Nat} {cs : List Char} {as : List Atom}
    (ha : atoms form skip pos cs = .ok as) :
    RawHole.bytes (as.filterMap Atom.hole?) ≤ byteLength (cs.drop skip) := by
  fun_induction atoms form skip pos cs generalizing as with
  | case1 =>
    cases ha
    exact Nat.zero_le _
  | case2 _ c cs k ih => exact ih ha
  | case3 => cases ha
  | case4 _ c _ e rest d _ ih =>
    obtain ⟨as, has, rfl⟩ := map_eq_ok.1 ha
    have := ih has
    simp only [List.filterMap_cons, Atom.hole?, List.drop_zero, byteLength] at this ⊢
    omega
  | case5 => cases ha
  | case6 => cases ha
  | case7 _ c cs _ _ x n hread ih =>
    obtain ⟨as, has, rfl⟩ := map_eq_ok.1 ha
    have hrest := ih has
    have hhole := RawHole.read_bytes hread
    have hsplit := byteLength_append (cs.take n) (cs.drop n)
    rw [List.take_append_drop] at hsplit
    have := c.utf8Size_pos
    simp only [List.filterMap_cons, Atom.hole?, List.drop_zero, byteLength, RawHole.bytes,
      List.map_cons, List.sum_cons] at hrest ⊢
    omega
  | case8 _ c cs _ _ ih =>
    obtain ⟨as, has, rfl⟩ := map_eq_ok.1 ha
    have := ih has
    simp only [List.filterMap_cons, Atom.hole?, List.drop_zero, byteLength] at this ⊢
    omega

/-- The holes of a literal leave at least one of its bytes over. -/
theorem decode_bytes {literal : String} {start : Nat} {d : Decoded}
    (hd : decode literal start = .ok d) (hl : 0 < literal.utf8ByteSize) :
    RawHole.bytes (d.pieces.filterMap Piece.hole?) < literal.utf8ByteSize := by
  unfold decode at hd
  dsimp only at hd
  split at hd
  · rename_i as ha
    obtain rfl := Except.ok.inj hd
    rw [Piece.join_holes]
    have hbytes := Piece.atoms_bytes ha
    have hne : literal.toList ≠ [] := by
      intro hnil
      rw [← byteLength_toList, hnil] at hl
      exact Nat.lt_irrefl 0 hl
    have hbody := StringForm.body_size ((StringForm.opening? literal.toList).getD .double) hne
    rw [List.drop_zero] at hbytes
    rw [byteLength_toList] at hbody
    omega
  · cases hd

namespace Parser

variable {α : Type} {n : Nat} {p : Nested → Parser α} {s : Surroundings} {c : Cursor}

/-- A computation that gives no cursor back, whose calls number at most `k`. -/
def Bounded (n k : Nat) (f : Nested → Except ParseError α) : Prop :=
  ∃ qs j, Asks (Nested.level n) f qs ∧ Adds (Call.Takes n) qs j ∧ j ≤ k ∧
    ∀ x, f (Nested.level n) = .error x → x.fault ≠ .outOfSteps

theorem Bounded.const {x : Except ParseError α} {k : Nat}
    (h : ∀ y, x = .error y → y.fault ≠ .outOfSteps) : Bounded n k fun _ => x :=
  ⟨[], 0, .done _, .nil, Nat.zero_le _, h⟩

theorem Bounded.mono {f : Nested → Except ParseError α} {k k' : Nat} (h : Bounded n k f)
    (hk : k ≤ k') : Bounded n k' f := by
  obtain ⟨qs, j, hasks, hadds, hj, hx⟩ := h
  exact ⟨qs, j, hasks, hadds, Nat.le_trans hj hk, hx⟩

theorem Bounded.congr {f g : Nested → Except ParseError α} {k : Nat} (h : Bounded n k f)
    (hfg : ∀ nested, f nested = g nested) : Bounded n k g := by
  rwa [← funext hfg]

theorem Bounded.map {β : Type} {f : Nested → Except ParseError α} {k : Nat} (g : α → β)
    (h : Bounded n k f) : Bounded n k fun nested => g <$> f nested := by
  obtain ⟨qs, j, hasks, hadds, hj, hx⟩ := h
  exact ⟨qs, j, hasks.map _, hadds, hj, fun x hg => hx x (map_eq_error.1 hg)⟩

theorem Bounded.bind {β : Type} {f : Nested → Except ParseError α}
    {g : α → Nested → Except ParseError β} {k j : Nat} (h : Bounded n k f)
    (hg : ∀ a, Bounded n j (g a)) :
    Bounded n (k + j) fun nested => f nested >>= fun a => g a nested := by
  obtain ⟨qs, i, hasks, hadds, hi, hx⟩ := h
  cases hf : f (Nested.level n) with
  | error x =>
    refine ⟨qs ++ [], i + 0, hasks.bind (g := fun o nested => o >>= fun a => g a nested) ?_,
      hadds.append .nil, by omega, ?_⟩
    · rw [hf]
      exact .done _
    · intro y hy
      dsimp only at hy
      rw [hf] at hy
      obtain rfl := Except.error.inj hy
      exact hx _ hf
  | ok a =>
    obtain ⟨rs, i', hasks', hadds', hi', hx'⟩ := hg a
    refine ⟨qs ++ rs, i + i', hasks.bind (g := fun o nested => o >>= fun a => g a nested) ?_,
      hadds.append hadds', by omega, ?_⟩
    · rw [hf]
      exact hasks'
    · intro y hy
      dsimp only at hy
      rw [hf] at hy
      exact hx' y hy

/-- A hole is read within its own bytes. -/
theorem inHole_bounded {h : RawHole} (hp : Follows n p) (hn : h.text.utf8ByteSize < n) :
    Bounded n (2 * h.text.utf8ByteSize + 1) fun nested => inHole h (p nested) := by
  unfold inHole
  dsimp only
  cases hl : (Lexed.ofString h.start h.text).last with
  | error x => exact .const fun y hy => by cases hy; simp [LexError.toParseError]
  | ok last =>
    have hlexed : Lexed.ofString h.start h.text =
        ⟨(Lexed.ofString h.start h.text).tokens, .ok last⟩ := by rw [← hl]
    have hc : (Cursor.start (Lexed.ofString h.start h.text).tokens last).Sound :=
      .start (Lexed.last_kind hlexed) (Lexed.tokens_size hlexed).2
    have hweight : (Cursor.start (Lexed.ofString h.start h.text).tokens last).weight ≤
        h.text.utf8ByteSize := by
      rw [Cursor.weight, Cursor.start_rest]
      exact Lexed.weight_le hl
    have hwhole : Follows n fun nested => do
        let a ← p nested
        let _ ← token .endOfText
        return a := hp.bind fun _ => (follows_token _).bind fun _ => .pure rfl
    obtain ⟨qs, k, hasks, hadds, hpays⟩ := hwhole ⟨.expectValue, true⟩ _ hc (by omega)
    refine ⟨qs, k, hasks.map Outcome.result, hadds, ?_⟩
    dsimp only at hpays ⊢
    generalize (do
        let a ← p (Nested.level n)
        let _ ← token .endOfText
        return a : Parser α) ⟨.expectValue, true⟩ _ = o at hpays
    cases hpays with
    | ok htakes hk =>
      have := htakes.weight_eq
      exact ⟨by omega, fun x hx => by cases hx⟩
    | error htakes hx hk =>
      have := htakes.weight_eq
      exact ⟨by omega, fun y hy => by cases hy; exact hx⟩

end Parser

/-- The calls that can be made at a level take a token and are paid for. -/
structure Nested.Advances (n : Nat) : Prop where
  expr : ∀ min, Parser.Advances n fun nested => nested.expr min
  value : ∀ min, Parser.Advances n fun nested => nested.value min
  statement : Parser.Advances n fun nested => nested.statement

namespace Parser

section Literals

variable (hn : Nested.Advances n)
include hn

theorem hole_bounded (h : RawHole) (hsize : h.text.utf8ByteSize < n) :
    Bounded n (2 * h.text.utf8ByteSize + 1) fun nested => hole nested h := by
  unfold hole
  cases h.kind with
  | name => exact (inHole_bounded leads_name.follows hsize).map _
  | expr => exact (inHole_bounded ((hn.value .group).follows.within _ _) hsize).map _

theorem parts_bounded (xs : List Piece)
    (hxs : RawHole.bytes (xs.filterMap Piece.hole?) ≤ n) :
    Bounded n (2 * RawHole.bytes (xs.filterMap Piece.hole?)) fun nested =>
      xs.mapM (part nested) := by
  induction xs with
  | nil => exact .const fun x hx => by cases hx
  | cons x xs ih =>
    simp only [List.mapM_cons, bind_pure_comp]
    cases x with
    | text t => exact ((ih hxs).map _).mono (Nat.le_refl _)
    | hole h =>
      simp only [List.filterMap_cons, Piece.hole?, RawHole.bytes, List.map_cons, List.sum_cons]
        at hxs ih ⊢
      exact ((hole_bounded hn h (by omega)).bind fun y => (ih (by omega)).map _).mono (by omega)

theorem literalOf_bounded {t : Token} (ht : 0 < t.text.utf8ByteSize)
    (hsize : t.text.utf8ByteSize ≤ n) :
    Bounded n (2 * (t.text.utf8ByteSize - 1)) fun nested => literalOf nested t := by
  unfold literalOf
  cases hd : decode t.text t.start with
  | error x =>
    refine .const fun y hy => ?_
    obtain rfl := Except.error.inj hy
    unfold LexError.inLiteral
    split <;> simp
  | ok d =>
    have hbytes := decode_bytes hd ht
    refine (((parts_bounded hn d.pieces (by omega)).map fun parts =>
      (⟨d.form, parts, t.span⟩ : StringLiteral)).mono (by omega)).congr fun nested => ?_
    dsimp only
    cases d.pieces.mapM (part nested) <;> rfl

/-- How the reading of a literal ends that stands before the cursor. -/
def literalOutcome (c : Cursor) : Except ParseError StringLiteral → Outcome StringLiteral
  | .ok literal => .ok literal c
  | .error x => .error ⟨x.fault, x.span⟩ c

/-- The token of a literal pays for all its holes. -/
theorem leads_stringLiteral_at (hc : c.Sound) (hw : c.weight < n + 1)
    (hk : c.here.kind ≠ .endOfText) :
    Script.Paid n c 1 (fun _ => 2) fun nested => stringLiteral nested s c := by
  have htakes := hc.ended.takes hk
  have hsize := hc.here_size hk
  have hle : c.here.text.utf8ByteSize ≤ n := by
    have := htakes.weight_eq
    simp only [Token.weight] at this
    omega
  obtain ⟨qs, k, hasks, hadds, hle, hx⟩ := literalOf_bounded hn hsize hle
  have hg : (fun nested => stringLiteral nested s c) =
      fun nested => literalOutcome c.advance (literalOf nested c.here) := by
    funext nested
    rw [stringLiteral, advance_bind]
    cases literalOf nested c.here <;> rfl
  rw [hg]
  refine ⟨qs, k, hasks.map (literalOutcome c.advance), hadds, ?_⟩
  dsimp only
  cases hl : literalOf (Nested.level n) c.here with
  | ok literal =>
    refine .ok htakes ?_
    simp only [Token.weight]
    omega
  | error x =>
    refine .error htakes (hx x hl) ?_
    simp only [Token.weight]
    omega

end Literals

section Expressions

theorem unaryOp_kind {k : TokenKind} {op : UnaryOp} (h : UnaryOp.ofKind? k = some op) :
    k ≠ .endOfText := by
  rintro rfl
  cases h

theorem operator_kind {k : TokenKind} {o : Operator} (h : Operator.ofKind? k = some o) :
    k ≠ .endOfText := by
  rintro rfl
  cases h

variable (hn : Nested.Advances n)
include hn

theorem leads_block : Leads n fun nested => block nested := by
  refine look_bind fun _ => ?_
  exact (leads_bracketed (by simp) (by simp) _ hn.statement).bind fun _ =>
    look_bind fun _ => .pure rfl

theorem leads_arguments : Leads n fun nested => arguments nested :=
  leads_bracketed (by simp) (by simp) _ (hn.expr .group)

omit hn in
theorem leads_named : Leads n fun _ => named := leads_name.bind fun _ => .pure rfl

omit hn in
theorem leads_wordOperand_at (hc : c.Sound) (hw : c.weight < n + 1) :
    Script.Paid n c 1 (fun _ => 2) fun _ => wordOperand c.here s c := by
  unfold wordOperand
  cases hword : c.here.keyword? with
  | none => exact leads_named s c hc hw
  | some word =>
    dsimp only
    cases literalWord? word with
    | some literal =>
      refine leads_advance_bind_at hc hw ?_ fun _ => .pure rfl
      rw [ident_of_keyword? hword]
      simp
    | none =>
      simp only [ite_apply]
      exact .ite (fun _ => leads_named s c hc hw) fun _ =>
        paid_unexpected _ (Nat.le_refl 1) s c hc hw

theorem leads_group : Leads n fun nested => group nested := by
  refine look_bind fun _ => (leads_token (by simp)).bind fun _ => ?_
  exact ((hn.expr .group).follows.within _ _).bind fun _ => (follows_token _).bind fun _ =>
    look_bind fun _ => .pure rfl

theorem leads_array : Leads n fun nested => array nested := by
  refine look_bind fun _ => ?_
  exact (leads_bracketed (by simp) (by simp) _ (hn.value .group)).bind fun _ =>
    look_bind fun _ => .pure rfl

theorem leads_object : Leads n fun nested => object nested := by
  refine look_bind fun _ => ?_
  exact (leads_bracketed (by simp) (by simp) _ hn.statement).bind fun _ =>
    look_bind fun _ => .pure rfl

theorem leads_operand : Leads n fun nested => operand nested := by
  intro s c hc hw
  have hstring : c.here.kind ≠ .endOfText → Script.Paid n c 1 (fun _ => 2) fun nested => (do
      let literal ← stringLiteral nested
      return (⟨.literal (.string literal), c.here.span⟩ : Expr) : Parser Expr) s c := fun hk =>
    paid_bind (leads_stringLiteral_at hn hc hw hk) fun _ c' _ _ _ => .pure c' rfl
  simp only [operand, here_bind]
  cases hop : UnaryOp.ofKind? c.here.kind with
  | some op =>
    exact leads_advance_bind_at hc hw (unaryOp_kind hop) fun _ =>
      (hn.expr .unary).follows.bind fun _ => .pure rfl
  | none =>
    cases hk : c.here.kind with
    | ident => exact leads_wordOperand_at hc hw
    | dot => exact leads_named s c hc hw
    | number kind => exact leads_advance_bind_at hc hw (by simp [hk]) fun _ => .pure rfl
    | plainString => exact hstring (by simp [hk])
    | rawString => exact hstring (by simp [hk])
    | formattedString => exact hstring (by simp [hk])
    | openParen => exact leads_group hn s c hc hw
    | openBracket => exact leads_array hn s c hc hw
    | openBrace =>
      simp only [surroundings_bind, ite_apply]
      exact .ite (fun _ => leads_object hn s c hc hw) fun _ =>
        paid_fail (by simp) _ (Nat.le_refl 1) s c hc hw
    | _ => exact paid_unexpected _ (Nat.le_refl 1) s c hc hw

theorem leads_pair_at (left : Expr) (hc : c.Sound) (hw : c.weight < n + 1)
    (hk : c.here.kind ≠ .endOfText) :
    Script.Paid n c 1 (fun _ => 2) fun nested => pair nested left s c := by
  unfold pair
  cases pairKey? left with
  | none => exact paid_fail (by simp) _ (Nat.le_refl 1) s c hc hw
  | some key =>
    exact leads_advance_bind_at hc hw hk fun _ =>
      (hn.value .transition).follows.bind fun _ => .pure rfl

omit hn in
theorem leads_transition_at (left : Expr) (hc : c.Sound) (hw : c.weight < n + 1)
    (hk : c.here.kind ≠ .endOfText) :
    Script.Paid n c 1 (fun _ => 2) fun _ => transition left s c := by
  unfold transition
  cases left.kind with
  | name source =>
    refine leads_advance_bind_at (f := fun _ _ => _) hc hw hk fun _ => ?_
    refine look_bind fun _ => .ite (fun _ => ?_) fun _ => look_bind fun _ => ?_
    · exact leads_name.follows.bind fun _ => .pure rfl
    · exact paid_fail (by simp) _ (Nat.zero_le 1)
  | _ => exact paid_fail (by simp) _ (Nat.le_refl 1) s c hc hw

theorem leads_call (callee : Expr) : Leads n fun nested => call nested callee := by
  have htrailing : Follows n fun nested => trailingBlock nested := by
    refine look_bind fun _ => look_bind fun _ => .ite (fun _ => ?_) fun _ => .pure rfl
    exact (leads_block hn).follows.bind fun _ => .pure rfl
  exact (leads_arguments hn).bind fun _ => htrailing.bind fun _ => look_bind fun _ => .pure rfl

/-- An operator is taken before its right side is read. -/
theorem leads_extend_at (left : Expr) (o : Operator) (hc : c.Sound) (hw : c.weight < n + 1)
    (hk : c.here.kind ≠ .endOfText) :
    Script.Paid n c 1 (fun _ => 2) fun nested => extend nested left o s c := by
  unfold extend
  cases o.op with
  | binary op =>
    exact leads_advance_bind_at hc hw hk fun _ => (hn.expr _).follows.bind fun _ => .pure rfl
  | compare op =>
    exact leads_advance_bind_at hc hw hk fun _ => (hn.expr _).follows.bind fun _ => .pure rfl
  | pair => exact leads_pair_at hn left hc hw hk
  | transition => exact leads_transition_at left hc hw hk
  | call => exact leads_call hn left s c hc hw

theorem iterates_climb (min : Strength) (left : Expr) :
    Iterates n fun nested => climb nested min left := by
  intro s c hc hw
  simp only [climb, here_bind, surroundings_bind, ite_apply]
  refine .ite (fun _ => .pure c rfl) fun _ => ?_
  cases ho : Operator.ofKind? c.here.kind with
  | none => exact .pure c rfl
  | some o =>
    simp only [ite_apply]
    refine .ite (fun _ => .pure c rfl) fun _ => Script.Paid.iterates ?_
    exact paid_bind (leads_extend_at hn left o hc (by omega) (operator_kind ho)) fun _ c' _ _ _ =>
      .pure c' rfl

theorem leads_expr (min : Strength) : Leads n fun nested => expr nested min :=
  (leads_operand hn).bind fun first =>
    follows_iterate (fun left => iterates_climb hn min left) first

end Expressions

end Parser

end Script
