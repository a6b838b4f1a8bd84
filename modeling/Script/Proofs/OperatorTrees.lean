import Mathlib.Data.Set.Finite.List
import Mathlib.Order.Filter.AtTopBot.Basic
import Mathlib.Order.Filter.Finite
import Script.Proofs.Alone
import Script.Proofs.Printed.Expression
import Script.Proofs.Printed.Text

/-!
Operator trees. The printer adds no parentheses, so a tree survives printing only if its operands are
as strong as their operators ask for. A tree that obeys the table of operators is read back from its
text.
-/
namespace Script

open Chunk

/-- A name whose segments are identifiers, and that may stand where an operand does. -/
structure Name.Proper (n : Name) : Prop where
  segments : n.segments ≠ []
  proper : ∀ i ∈ n.segments, i.isProper = true
  free : n.Free

/-- A name that begins with no keyword may stand where an operand does. -/
theorem Name.Proper.of_plain {i : Ident} {is : List Ident} {span : Span}
    (hp : ∀ j ∈ i :: is, j.isProper = true) (hk : Keyword.ofText? i.text = none) :
    Name.Proper ⟨false, i :: is, span⟩ where
  segments := List.cons_ne_nil _ _
  proper := hp
  free := by
    refine .inr fun j hj w hw => ?_
    obtain rfl := Option.some.inj hj
    rw [hk] at hw
    cases hw

theorem stops_of_weaker {s : Surroundings} {min : Strength} {t : Token} {ts : List Token}
    {o : Operator} (ho : Operator.ofKind? t.kind = some o) (h : o.strength < min) :
    Stops s min (t :: ts) := by
  intro u hu o' ho'
  obtain rfl := Option.some.inj hu
  obtain rfl := Option.some.inj (ho.symm.trans ho'.operator)
  exact ho'.strong h

namespace Expr

/-- A tree of operators over names and literals whose operands have the levels that the table of
operators asks for. Calls have no block, and strings stand in double quotes and have no holes. -/
inductive OperatorTree : Expr → Prop
  | name {n : Name} {span : Span} (hn : n.Proper) : OperatorTree ⟨.name n, span⟩
  | number {kind : NumberKind} {raw : String} {span : Span}
      (hb : Numeral.begins raw.toList = true) (hk : Numeral.classify raw.toList = some kind) :
      OperatorTree ⟨.literal (.number kind raw), span⟩
  | word {word : Keyword} {literal : Literal} {span : Span}
      (hw : Parser.literalWord? word = some literal) : OperatorTree ⟨.literal literal, span⟩
  | string {l : StringLiteral} {text : String} {span : Span} (hf : l.form = .double)
      (ht : l.IsText text) : OperatorTree ⟨.literal (.string l), span⟩
  | unary {op : UnaryOp} {operand : Expr} {span : Span} (ho : OperatorTree operand)
      (hlevel : .unary ≤ operand.level) : OperatorTree ⟨.unary op operand, span⟩
  | binary {op : BinaryOp} {left right : Expr} {span : Span} (hl : OperatorTree left)
      (hr : OperatorTree right) (hleft : op.strength ≤ left.level)
      (hright : op.strength < right.level) : OperatorTree ⟨.binary op .left left right, span⟩
  | comparison {op : CompareOp} {left right : Expr} {span : Span} (hl : OperatorTree left)
      (hr : OperatorTree right) (hleft : .comparison ≤ left.level)
      (hright : .comparison < right.level) :
      OperatorTree ⟨.comparison op .left left right, span⟩
  | call {callee : Expr} {args : List Expr} {span : Span} (hc : OperatorTree callee)
      (ha : ∀ a ∈ args, OperatorTree a) (hlevel : .call ≤ callee.level) :
      OperatorTree ⟨.call callee args none, span⟩
  | group {inner : Expr} {span : Span} (hi : OperatorTree inner) :
      OperatorTree ⟨.group inner, span⟩
  | array {items : List Expr} {span : Span} (hi : ∀ a ∈ items, OperatorTree a) :
      OperatorTree ⟨.array items, span⟩
  | namePair {key : Name} {value : Expr} {span : Span} (hk : key.Proper)
      (hv : OperatorTree value) : OperatorTree ⟨.pair (.name key) value, span⟩
  | stringPair {key : StringLiteral} {text : String} {value : Expr} {span : Span}
      (hf : key.form = .double) (ht : key.IsText text) (hv : OperatorTree value) :
      OperatorTree ⟨.pair (.string key) value, span⟩
  | transition {source target : Name} {span : Span} (hs : source.Proper) (ht : target.Proper) :
      OperatorTree ⟨.transition source target, span⟩

variable {e : Expr} {s : Surroundings} {k : TokenKind} {o : Operator}

/-- An operand ends before an operator that is no stronger than itself. -/
theorem OperatorTree.endsBeforeSign (h : e.OperatorTree) (ho : Operator.ofKind? k = some o)
    (hpair : .pair < o.strength) (hlevel : o.strength ≤ e.level) : e.EndsBeforeSign s k := by
  intro t ts hk hline
  have hop : Operator.ofKind? t.kind = some o := hk ▸ ho
  have hdot : t.kind ≠ .dot := fun hdot => by rw [hdot] at hop; cases hop
  have hbrace : t.kind ≠ .openBrace := fun hbrace => by rw [hbrace] at hop; cases hop
  induction h with
  | name => exact not_continues (.inl hdot)
  | call => exact fun _ => not_continues (.inl hbrace)
  | unary _ hoperand ih =>
    have hlt : o.strength < .unary := Strength.lt_of_le_of_ne hlevel (Operator.strength_ne_unary ho)
    exact ⟨ih (Strength.le_trans hlevel hoperand), stops_of_weaker hop hlt⟩
  | @binary op _ _ _ _ _ _ hright _ ih =>
    have hlt := Strength.lt_tighter op.strength op.strength_ne_call
    exact ⟨ih (Strength.le_trans hlevel (Strength.le_of_lt hright)),
      stops_of_weaker hop (Nat.lt_of_le_of_lt hlevel hlt)⟩
  | comparison _ _ _ hright _ ih =>
    have hlt := Strength.lt_tighter .comparison nofun
    exact ⟨ih (Strength.le_trans hlevel (Strength.le_of_lt hright)),
      stops_of_weaker hop (Nat.lt_of_le_of_lt hlevel hlt)⟩
  | namePair => exact absurd hpair (Strength.not_lt.2 hlevel)
  | stringPair => exact absurd hpair (Strength.not_lt.2 hlevel)
  | transition =>
    have hweak : Strength.transition ≤ .pair := by decide
    exact absurd hpair (Strength.not_lt.2 (Strength.le_trans hlevel hweak))
  | _ => trivial

/-- No operator tree is weaker than a transition. -/
theorem OperatorTree.transition_le (h : e.OperatorTree) : .transition ≤ e.level := by
  cases h with
  | @binary op => cases op <;> exact Nat.le_of_ble_eq_true rfl
  | _ => exact Nat.le_of_ble_eq_true rfl

/-- An expression is written back at every place that its level allows, by the rules of all levels
from some level on. -/
def Printable (e : Expr) : Prop :=
  ∀ᶠ n in Filter.atTop, ∀ s min, min ≤ e.level → e.Printed (Expr.Written (Rules.level n) s min)

theorem Printable.nested (h : e.Printable) : ∀ᶠ n in Filter.atTop, ∀ s min, min ≤ e.level →
    e.Printed ((Rules.level n).expr s min) ∧ e.Printed ((Rules.level n).value s min) := by
  filter_upwards [(Filter.tendsto_sub_atTop_nat 1).eventually h, Filter.eventually_ge_atTop 1]
    with n hn hpos s min hmin
  obtain ⟨n, rfl⟩ := Nat.exists_eq_add_of_le' hpos
  have hwritten : e.Printed (Expr.Written (Rules.level n) s min) := hn s min hmin
  exact ⟨hwritten, hwritten.mono ValueWritten.expr⟩

theorem Printable.nested_all {es : List Expr} (h : ∀ e ∈ es, e.Printable) :
    ∀ᶠ n in Filter.atTop, ∀ e ∈ es, ∀ s,
      e.Printed ((Rules.level n).expr s .group) ∧ e.Printed ((Rules.level n).value s .group) := by
  filter_upwards [(Filter.eventually_all_finite es.finite_toSet).2 fun e he => (h e he).nested]
    with n hn e he s
  exact hn e he s .group (Strength.group_le _)

/-- The induction is on the tree. What an operator asks of its operands is what their levels
promise, and a left operand ends before the operator since it is as strong. -/
theorem OperatorTree.printable (h : e.OperatorTree) : e.Printable := by
  have hident : ∀ {n : Name}, n.Proper → ∀ i ∈ n.segments, Word.Readable ⟨.ident, i.text⟩ :=
    fun hn i hi => Word.readable_proper (hn.proper i hi)
  have hstring : ∀ {rules s min} {l : StringLiteral} {text : String} {span : Span},
      l.form = .double → l.IsText text →
        Expr.Printed (Expr.Written rules s min) ⟨.literal (.string l), span⟩ := by
    intro rules s min l text span hf ht
    have hkeeps : l.form.Keeps text.toList :=
      StringForm.keeps_of_hasEscapes (by rw [hf]; rfl) text.toList
    exact printed_string (StringLiteral.written_text ht hkeeps rules)
      (StringLiteral.readable_text ht hkeeps)
  induction h with
  | name hn =>
    exact .of_forall fun n s min hmin => printed_name hn.segments (hident hn) hn.free
  | number hb hk =>
    exact .of_forall fun n s min hmin => printed_number (Word.readable_number hb hk)
  | word hw => exact .of_forall fun n s min hmin => printed_word hw
  | string hf ht => exact .of_forall fun n s min hmin => hstring hf ht
  | unary ho hlevel ih =>
    filter_upwards [ih.nested] with n hn s min hmin
    exact printed_unary (hn s _ hlevel).1
  | @binary op _ _ _ hl hr hleft hright ihl ihr =>
    filter_upwards [ihl, ihr.nested] with n hln hrn s min hmin
    have hpair : Strength.pair < op.strength := by cases op <;> decide
    exact printed_binary hmin (hln s min (Strength.le_trans hmin hleft))
      (hl.endsBeforeSign op.operator_kind hpair hleft) (hrn s _ (Strength.tighter_le hright)).1
  | @comparison op _ _ _ hl hr hleft hright ihl ihr =>
    filter_upwards [ihl, ihr.nested] with n hln hrn s min hmin
    exact printed_comparison hmin (hln s min (Strength.le_trans hmin hleft))
      (hl.endsBeforeSign op.operator_kind (by decide : Strength.pair < .comparison) hleft)
      (hrn s _ (Strength.tighter_le hright)).1
  | call hc ha hlevel ihc iha =>
    filter_upwards [ihc, Printable.nested_all iha] with n hcn han s min hmin
    exact printed_call (hcn s min (Strength.le_trans hmin hlevel))
      (hc.endsBeforeSign rfl (by decide : Strength.pair < .call) hlevel) hmin
      fun a h => (han a h .item).1
  | group hi ih =>
    filter_upwards [ih.nested] with n hn s min hmin
    exact printed_group (hn .grouped .group (Strength.group_le _)).1
  | array hi ih =>
    filter_upwards [Printable.nested_all ih] with n hn s min hmin
    exact printed_array fun a h => (hn a h .item).2
  | namePair hk hv ih =>
    filter_upwards [ih.nested] with n hn s min hmin
    exact printed_pair ⟨.name _, default⟩ rfl hmin
      (printed_name hk.segments (hident hk) hk.free) (hn s _ hv.transition_le).2
  | stringPair hf ht hv ih =>
    filter_upwards [ih.nested] with n hn s min hmin
    exact printed_pair ⟨.literal (.string _), default⟩ (by simp [Parser.pairKey?, hf]) hmin
      (hstring hf ht) (hn s _ hv.transition_le).2
  | transition hs ht =>
    refine .of_forall fun n s min hmin => printed_transition hmin ?_ ?_
    · exact printed_name hs.segments (hident hs) hs.free
    · exact Name.printed ht.segments (hident ht)

/-- The printed form of an expression that is written back is a program: this expression. -/
theorem Printable.parse_print (h : e.Printable) : ∃ (e' : Expr) (span span' : Span),
    Program.parse (e.print 0) = .ok ⟨[⟨.expr e', span⟩], span'⟩ ∧ e'.erase = e.erase := by
  obtain ⟨n, hn⟩ := h.exists
  have hprinted := hn .item .group (Strength.group_le _)
  have hspells := Expr.prints 0 e [] none rfl (.inr nofun)
  have htext : (e.print 0).toList = spell (e.chunks StringLiteral.print [] 0) := by
    have hprint : String.ofList (spell (e.chunks StringLiteral.print [] 0)) = e.print 0 := by
      simpa using hspells.text
    rw [← hprint, String.toList_ofList]
  have hlexed := Chunk.lexed 0 htext hspells.set (hprinted.readable [] 0)
  obtain ⟨e', he, hw⟩ := hprinted.written [] 0 0
  have hend : (Token.endAt (0 + (e.print 0).utf8ByteSize) false).kind = .endOfText := rfl
  have hlist := Statement.ListWritten.single (.mk (.expr hw)) hend
  exact ⟨e', _, _, Program.parse_iff.2 ⟨_, _, hlexed, ⟨⟨n + 1, hlist⟩, rfl⟩⟩, he⟩

end Expr

namespace Program

/-- Printing a tree that obeys the table of operators and reading its text gives back this tree. -/
theorem parse_operators {e : Expr} (h : e.OperatorTree) : ∃ (e' : Expr) (span span' : Span),
    parse (e.print 0) = .ok ⟨[⟨.expr e', span⟩], span'⟩ ∧ e'.erase = e.erase :=
  h.printable.parse_print

theorem parse_operators_chain :
    ∃ e : Expr, e.OperatorTree ∧ e.print 0 = "--x * 2 + f(k: \"\\\"\", x -> x)(true) == [.5]" ∧
      ∃ (e' : Expr) (span span' : Span),
        parse (e.print 0) = .ok ⟨[⟨.expr e', span⟩], span'⟩ ∧ e'.erase = e.erase := by
  have hx : Name.Proper ⟨false, [⟨"x", default⟩], default⟩ := .of_plain (by decide) (by decide)
  have hf : Name.Proper ⟨false, [⟨"f", default⟩], default⟩ := .of_plain (by decide) (by decide)
  have hk : Name.Proper ⟨false, [⟨"k", default⟩], default⟩ := .of_plain (by decide) (by decide)
  have hquote : StringLiteral.IsText ⟨.double, [.text "\""], default⟩ "\"" := rfl
  have operand := @Expr.OperatorTree.name _ default hx
  have negated := @Expr.OperatorTree.unary .neg _ default
    (@Expr.OperatorTree.unary .neg _ default operand (by decide)) (by decide)
  have two : Expr.OperatorTree ⟨.literal (.number .int "2"), default⟩ :=
    .number (by decide) (by decide)
  have product := @Expr.OperatorTree.binary .mul _ _ default negated two (by decide) (by decide)
  have quoted := @Expr.OperatorTree.namePair _ _ default hk
    (@Expr.OperatorTree.string _ _ default rfl hquote)
  have move := @Expr.OperatorTree.transition _ _ default hx hx
  have inner := @Expr.OperatorTree.call _ _ default (@Expr.OperatorTree.name _ default hf)
    (List.forall_mem_cons.2 ⟨quoted, List.forall_mem_singleton.2 move⟩) (by decide)
  have call := @Expr.OperatorTree.call _ _ default inner
    (List.forall_mem_singleton.2 (@Expr.OperatorTree.word .trueWord _ default rfl)) (by decide)
  have half : Expr.OperatorTree ⟨.literal (.number .float ".5"), default⟩ :=
    .number (by decide) (by decide)
  have list := @Expr.OperatorTree.array _ default (List.forall_mem_singleton.2 half)
  have sum := @Expr.OperatorTree.binary .add _ _ default product call (by decide) (by decide)
  have h := @Expr.OperatorTree.comparison .eq _ _ default sum list (by decide) (by decide)
  exact ⟨_, h, by decide +kernel, parse_operators h⟩

end Program

end Script
