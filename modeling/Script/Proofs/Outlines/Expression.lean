import Script.Proofs.Outlines.Laid

/-!
The outlines of expressions are laid over their tokens. What a hole of a string literal holds is
laid over the tokens of the hole, which stand inside the token of the literal.
-/
namespace Script

open Outline Token

theorem Expr.outlineEach_eq (es : List Expr) : Expr.outlineEach es = es.map Expr.outline := by
  induction es with
  | nil => rfl
  | cons e es ih => rw [Expr.outlineEach, ih, List.map_cons]

theorem Statement.outlineEach_eq (ss : List Statement) :
    Statement.outlineEach ss = ss.map Statement.outline := by
  induction ss with
  | nil => rfl
  | cons s ss ih => rw [Statement.outlineEach, ih, List.map_cons]

theorem EnumMember.outlineEach_eq (ms : List EnumMember) :
    EnumMember.outlineEach ms = ms.map EnumMember.outline := by
  induction ms with
  | nil => rfl
  | cons m ms ih => rw [EnumMember.outlineEach, ih, List.map_cons]

/-- A key has the outlines below the expression that it was read as. -/
theorem PairKey.outlines_eq {e : Expr} {key : PairKey} (h : Parser.pairKey? e = some key) :
    key.outlines = e.kind.outlines := by
  obtain ⟨kind, span⟩ := e
  unfold Parser.pairKey? at h
  split at h
  · rename_i hk
    obtain rfl : kind = _ := hk
    obtain rfl := Option.some.inj h
    rfl
  · rename_i hk
    obtain rfl : kind = _ := hk
    split at h
    · cases h
    · obtain rfl := Option.some.inj h
      rfl
  · cases h

variable {source : String} {rules : Rules} {s : Surroundings} {min : Strength} {t : Token}
  {ts us : List Token}

/-- A node between the bounds of a hole's text. -/
def Outline.Inside (o : Outline) (h : RawHole) : Prop :=
  h.start ≤ o.span.start ∧ o.span.stop ≤ h.inner.stop

/-- A node that is laid over the tokens of a hole stands inside the hole. -/
theorem Outline.Laid.inside {h : RawHole} {last : Token} {o : Outline} (ho : Laid source us [o])
    (hl : Lexed.ofString h.start h.text = ⟨us, .ok last⟩) : o.Inside h := by
  obtain ⟨t, ht, u, hu, hstart, hstop⟩ := ho.within o (List.mem_singleton_self o)
  exact ⟨Nat.le_trans (Lexed.inside hl ht).1 hstart, Nat.le_trans hstop (Lexed.inside hl hu).2⟩

/-- A hole stands inside its literal. -/
theorem Cuts.hole_inside {d : Decoded} {h : RawHole} (hp : Cuts source [t])
    (hk : t.kind.isString = true) (hd : decode t.text t.start = .ok d) (hh : .hole h ∈ d.pieces) :
    t.start ≤ h.start ∧ h.inner.stop ≤ t.stop := by
  obtain ⟨pre, mid, post, hcut⟩ := hp (by simp)
  obtain ⟨newline, hscans⟩ := hcut.scans
  obtain ⟨form, ho, -⟩ := (hscans.mem (List.mem_singleton_self t)).2.string hk
  obtain ⟨a, b, htext, hstart⟩ := decode_within ho hd hh
  have hbytes := congrArg Chars.byteLength htext
  rw [Chars.byteLength_append, Chars.byteLength_append, Chars.byteLength_toList,
    Chars.byteLength_toList] at hbytes
  have hword : t.word.text = t.text := rfl
  rw [hword] at hbytes
  rw [RawHole.inner, Token.stop]
  dsimp only
  omega

/-- Nodes in the holes of a literal, each in one of them. -/
structure Outline.InHoles (source : String) (t : Token) (hs : List RawHole) (os : List Outline) :
    Prop where
  laid : Laid source [t] os
  inside : ∀ o ∈ os, ∃ h ∈ hs, o.Inside h

/-- A node in one hole of a literal and nodes in the holes after it. -/
theorem Outline.InHoles.cons {h : RawHole} {hs : List RawHole} {o : Outline} {os : List Outline}
    (hos : InHoles source t hs os) (hbefore : ∀ h' ∈ hs, h.Before h')
    (hh : t.start ≤ h.start ∧ h.inner.stop ≤ t.stop) (ho : o.Proper source) (hin : o.Inside h) :
    InHoles source t (h :: hs) (o :: os) := by
  refine ⟨⟨List.forall_mem_cons.2 ⟨ho, hos.laid.proper⟩, .cons (fun p hp => ?_) hos.laid.sorted,
    List.forall_mem_cons.2 ⟨?_, hos.laid.within⟩⟩,
    List.forall_mem_cons.2 ⟨⟨h, List.mem_cons_self .., hin⟩, fun p hp => ?_⟩⟩
  · obtain ⟨h', hmem, hstart, -⟩ := hos.inside p hp
    exact Nat.le_trans hin.2 (Nat.le_trans (hbefore h' hmem) hstart)
  · exact ⟨t, by simp, t, by simp, Nat.le_trans hh.1 hin.1, Nat.le_trans hin.2 hh.2⟩
  · obtain ⟨h', hmem, hin'⟩ := hos.inside p hp
    exact ⟨h', List.mem_cons_of_mem _ hmem, hin'⟩

/-- What is nested inside a construct is laid over its tokens. -/
structure Rules.Laying (source : String) (rules : Rules) : Prop where
  spanning : rules.Spanning
  expr : ∀ {s min e ts}, rules.expr s min e ts → Cuts source ts → Laid source ts [e.outline]
  value : ∀ {s min e ts}, rules.value s min e ts → Cuts source ts → Laid source ts [e.outline]
  statement : ∀ {s st ts}, rules.statement s st ts → Cuts source ts → Laid source ts [st.outline]

/-- An expression with the span of its tokens, over which the nodes right below it are laid. -/
theorem Outline.Laid.expr {e : Expr} (hp : Cuts source ts) (hts : ts ≠ [])
    (hspan : e.span = spanOf ts) (hraw : e.kind.raw? = none)
    (h : Laid source ts e.kind.outlines) : Laid source ts [e.outline] := by
  obtain ⟨kind, span⟩ := e
  obtain rfl : span = _ := hspan
  refine .node hp hts ?_ h
  rw [show kind.raw? = none from hraw]
  nofun

namespace Rules.Laying

variable (hr : rules.Laying source)
include hr

theorem block {body : Block} (h : body.Written rules ts) (hp : Cuts source ts) :
    Laid source ts [body.outline] := by
  cases h with
  | mk _ hs =>
    rw [Block.outline, Statement.outlineEach_eq]
    exact .node hp (by simp) nofun (.tail (hs.laid hp.tail hr.statement))

/-- The parts of a literal give the nodes in its holes. -/
theorem parts {d : Decoded} (hp : Cuts source [t]) (hk : t.kind.isString = true)
    (hd : decode t.text t.start = .ok d) {xs : List Piece} {ps : List StringPart}
    (h : StringPart.EachWritten rules xs ps) (hxs : ∀ x ∈ xs, x ∈ d.pieces)
    (hsorted : (xs.filterMap Piece.hole?).Pairwise RawHole.Before) :
    InHoles source t (xs.filterMap Piece.hole?) (StringPart.outlines ps) := by
  have htokens : ∀ {h : RawHole} {us : List Token} {last : Token}, .hole h ∈ d.pieces →
      Lexed.ofString h.start h.text = ⟨us, .ok last⟩ → Cuts source us := fun hh hl =>
    (Cuts.hereditary source).hole hp (List.mem_singleton_self t) hk hd hh hl
  induction h with
  | nil => exact ⟨.nil, nofun⟩
  | cons hpart _ ih =>
    rw [List.forall_mem_cons] at hxs
    cases hpart with
    | text => exact ih hxs.2 hsorted
    | nameHole _ hl hn =>
      obtain ⟨hbefore, hsorted⟩ := List.pairwise_cons.1 hsorted
      have ho := hn.laid (htokens hxs.1 hl)
      exact (ih hxs.2 hsorted).cons hbefore (hp.hole_inside hk hd hxs.1)
        (ho.proper _ (List.mem_singleton_self _)) (ho.inside hl)
    | exprHole _ hl he =>
      obtain ⟨hbefore, hsorted⟩ := List.pairwise_cons.1 hsorted
      have ho := hr.value he (htokens hxs.1 hl)
      exact (ih hxs.2 hsorted).cons hbefore (hp.hole_inside hk hd hxs.1)
        (ho.proper _ (List.mem_singleton_self _)) (ho.inside hl)

theorem literal {l : StringLiteral} (h : l.Written rules t) (hk : t.kind.isString = true)
    (hp : Cuts source [t]) : Laid source [t] [l.outline] := by
  cases h with
  | mk hd hparts =>
    have hholes := hr.parts hp hk hd hparts (fun _ h => h) (decode_sorted hd)
    rw [StringLiteral.outline, ← spanOf_single]
    exact .node hp (by simp) nofun hholes.laid

theorem operand {e : Expr} (h : e.OperandWritten rules s ts) (hp : Cuts source ts) :
    Laid source ts [e.outline] := by
  have hspan := h.span hr.spanning hp.sorted
  cases h with
  | unary _ ho => exact .expr hp (by simp) hspan rfl (.tail (hr.expr ho hp.tail))
  | @word _ word _ _ hl =>
    refine .expr hp (by simp) hspan ?_ ?_
    · cases word <;> cases hl <;> rfl
    · cases word <;> cases hl <;> exact .nil
  | name hn => exact .expr hp hn.name.ne_nil hspan rfl (hn.name.laid hp)
  | number => exact .token hp
  | string ht hl => exact .expr hp (by simp) hspan rfl (hr.literal hl ht hp)
  | group _ hi => exact .expr hp (by simp) hspan rfl (.tail (.left (hr.expr hi hp.tail.left)))
  | array _ hi =>
    refine .expr hp (by simp) hspan rfl ?_
    rw [ExprKind.outlines, Expr.outlineEach_eq]
    exact .tail (hi.laid hp.tail hr.value)
  | object _ _ he =>
    refine .expr hp (by simp) hspan rfl ?_
    rw [ExprKind.outlines, Statement.outlineEach_eq]
    exact .tail (he.laid hp.tail hr.statement)

theorem trailing {o : Option Block} (h : Block.TrailingWritten rules s o ts)
    (hp : Cuts source ts) : Laid source ts (Block.outlineOption o) := by
  cases h with
  | none => exact .nil
  | some _ _ hb => exact hr.block hb hp

theorem extend {left e : Expr} {o : Operator} (h : Expr.Extends rules s left o us e)
    (hp : Cuts source (ts ++ us)) (hne : ts ≠ []) (hspan : left.span = spanOf ts)
    (hl : Laid source ts [left.outline]) : Laid source (ts ++ us) [e.outline] := by
  have hspan := h.span hr.spanning hspan hne hp.sorted
  have hts : ts ++ us ≠ [] := List.append_ne_nil_of_left_ne_nil hne us
  cases h with
  | binary _ hright =>
    exact .expr hp hts hspan rfl (.cons hp hl (.tail (hr.expr hright hp.right.tail)))
  | comparison _ hright =>
    exact .expr hp hts hspan rfl (.cons hp hl (.tail (hr.expr hright hp.right.tail)))
  | pair _ hk hv =>
    have hkey : Laid source ts left.kind.outlines := by
      obtain ⟨kind, span⟩ := left
      exact hl.children
    refine .expr hp hts hspan rfl ?_
    rw [ExprKind.outlines, PairKey.outlines_eq hk]
    exact .append hp hkey (.tail (hr.value hv hp.right.tail))
  | @transition source' target t us _ hs ht =>
    have hkey : Laid source ts left.kind.outlines := by
      obtain ⟨kind, span⟩ := left
      exact hl.children
    rw [hs] at hkey
    exact .expr hp hts hspan rfl (.cons hp hkey (.tail (ht.laid hp.right.tail)))
  | call _ ha hb =>
    have hp' := hp.right.tail
    refine .expr hp hts hspan rfl (.cons hp hl (.tail ?_))
    rw [Expr.outlineEach_eq]
    exact .append hp' (ha.laid hp'.left hr.expr) (hr.trailing hb hp'.right)

theorem written {e : Expr} (h : e.Written rules s min ts) (hp : Cuts source ts) :
    Laid source ts [e.outline] := by
  induction h with
  | operand he => exact hr.operand he hp
  | extend hl _ _ he ih =>
    exact hr.extend he hp hl.opens.begin.ne_nil (hl.span hr.spanning hp.left.sorted) (ih hp.left)

end Rules.Laying

end Script
