import Script.Proofs.Lexing.Tokens
import Script.Proofs.Openings

/-!
The span of an expression goes from the first to the last of its tokens. This holds because the
tokens stand one after the other: the spans are put together by covering those of the parts.
-/
namespace Script

open Chars

/-- Tokens that stand one after the other. -/
def Token.Sorted (ts : List Token) : Prop := ts.Pairwise fun t u => t.stop ≤ u.start

variable {t u : Token} {ts us vs : List Token} {s : Surroundings} {min : Strength}

theorem Scans.sorted {pos : Nat} {newline after : Bool} {cs r : List Char}
    (h : Scans pos newline cs r ts after) : Token.Sorted ts := by
  induction h with
  | done => exact .nil
  | blank _ _ ih => exact ih
  | comment _ _ _ ih => exact ih
  | token _ h ih =>
    refine .cons (fun u hu => ?_) ih
    have hstart := h.start_le u hu
    rwa [← utf8ByteSize_ofList] at hstart

namespace Token

theorem start_le_stop (t : Token) : t.start ≤ t.stop := Nat.le_add_right _ _

theorem spanOf_single (t : Token) : spanOf [t] = t.span := by
  simp [spanOf, spanFrom, span, Nat.max_eq_left t.start_le_stop]

namespace Sorted

theorem start_le (h : Sorted (t :: ts)) : ∀ u ∈ t :: ts, t.start ≤ u.start := by
  intro u hu
  rcases List.mem_cons.1 hu with rfl | hu
  · exact Nat.le_refl _
  · exact Nat.le_trans t.start_le_stop ((List.pairwise_cons.1 h).1 u hu)

theorem le_stop (h : Sorted (ts ++ [u])) : ∀ t ∈ ts ++ [u], t.stop ≤ u.stop := by
  intro t ht
  rcases List.mem_append.1 ht with ht | ht
  · have hlast := (List.pairwise_append.1 h).2.2 t ht u (by simp)
    exact Nat.le_trans hlast u.start_le_stop
  · rw [List.mem_singleton] at ht
    exact ht ▸ Nat.le_refl _

theorem spanFrom_eq {start : Nat} (h : start ≤ u.start) :
    spanFrom start (ts ++ [u]) = ⟨start, u.stop⟩ := by
  have hstop : max u.stop start = u.stop :=
    Nat.max_eq_left (Nat.le_trans h u.start_le_stop)
  simp [spanFrom, hstop]

theorem spanOf_eq (h : Sorted ts) (ht : ts.head? = some t) (hu : ts.getLast? = some u) :
    spanOf ts = ⟨t.start, u.stop⟩ := by
  obtain ⟨vs, rfl⟩ := List.getLast?_eq_some_iff.1 hu
  obtain ⟨ws, hws⟩ := List.head?_eq_some_iff.1 ht
  rw [hws] at h
  have hle := h.start_le u (hws ▸ by simp)
  rw [hws, spanOf, ← hws, spanFrom_eq hle]

/-- The spans of two parts cover what stands between them. -/
theorem cover (h : Sorted (ts ++ (us ++ vs))) (hts : ts ≠ []) (hvs : vs ≠ []) :
    (spanOf ts).cover (spanOf vs) = spanOf (ts ++ (us ++ vs)) := by
  obtain ⟨t, ts, rfl⟩ := List.exists_cons_of_ne_nil hts
  obtain ⟨v, vs', rfl⟩ := List.exists_cons_of_ne_nil hvs
  obtain ⟨a, ha⟩ : ∃ a, (t :: ts).getLast? = some a := ⟨_, List.getLast?_eq_some_getLast hts⟩
  obtain ⟨b, hb⟩ : ∃ b, (v :: vs').getLast? = some b := ⟨_, List.getLast?_eq_some_getLast hvs⟩
  have hall : ((t :: ts) ++ (us ++ v :: vs')).getLast? = some b := by
    rw [List.getLast?_append, List.getLast?_append, hb]
    rfl
  have hparts := List.pairwise_append.1 h
  rw [spanOf_eq hparts.1 rfl ha, spanOf_eq (List.pairwise_append.1 hparts.2.1).2.1 rfl hb,
    spanOf_eq h rfl hall, Span.cover]
  congr 1
  · exact Nat.min_eq_left (h.start_le v (by simp))
  · obtain ⟨ws, hws⟩ := List.getLast?_eq_some_iff.1 hall
    rw [hws] at h
    refine Nat.max_eq_right (h.le_stop a (hws ▸ ?_))
    exact List.mem_append_left _ (List.mem_of_getLast? ha)

end Sorted

end Token

open Token

theorem Name.Written.span {n : Name} (h : n.Written ts) : n.span = spanOf ts := by
  cases h <;> rfl

/-- The expressions nested inside a construct have the spans of their tokens. -/
structure Rules.Spanning (rules : Rules) : Prop where
  opening : rules.Opening
  expr : ∀ {s min e ts}, rules.expr s min e ts → Sorted ts → e.span = spanOf ts
  value : ∀ {s min e ts}, rules.value s min e ts → Sorted ts → e.span = spanOf ts

section Spanning

variable {rules : Rules} (hr : rules.Spanning)
include hr

theorem Expr.OperandWritten.span {e : Expr} (h : e.OperandWritten rules s ts)
    (hts : Sorted ts) : e.span = spanOf ts := by
  cases h with
  | @unary op t ts operand ht ho =>
    have hcover := @Sorted.cover [t] [] ts hts (by simp) (hr.opening.expr ho).begin.ne_nil
    rw [hr.expr ho (List.pairwise_cons.1 hts).2, ← spanOf_single]
    exact hcover
  | @word t => exact (spanOf_single t).symm
  | name hn => exact hn.name.span
  | @number t => exact (spanOf_single t).symm
  | @string t => exact (spanOf_single t).symm
  | group => rfl
  | array => rfl
  | object => rfl

theorem Expr.Extends.span {left e : Expr} {o : Operator}
    (h : Expr.Extends rules s left o us e) (hl : left.span = spanOf ts) (hne : ts ≠ [])
    (hts : Sorted (ts ++ us)) : e.span = spanOf (ts ++ us) := by
  have hright := (List.pairwise_append.1 hts).2.1
  cases h with
  | @binary op t us right _ hw =>
    rw [hl, hr.expr hw (List.pairwise_cons.1 hright).2]
    exact @Sorted.cover ts [t] us hts hne (hr.opening.expr hw).begin.ne_nil
  | @comparison op t us right _ hw =>
    rw [hl, hr.expr hw (List.pairwise_cons.1 hright).2]
    exact @Sorted.cover ts [t] us hts hne (hr.opening.expr hw).begin.ne_nil
  | @pair key t us value _ _ hv =>
    rw [hl, hr.value hv (List.pairwise_cons.1 hright).2]
    exact @Sorted.cover ts [t] us hts hne (hr.opening.value hv).ne_nil
  | @transition source target t us _ _ ht =>
    rw [hl, ht.span]
    exact @Sorted.cover ts [t] us hts hne ht.ne_nil
  | @call args body t us vs =>
    obtain ⟨a, ts, rfl⟩ := List.exists_cons_of_ne_nil hne
    have hlast : (a :: ts ++ t :: (us ++ vs)).getLast? = (t :: (us ++ vs)).getLast? := by
      rw [List.getLast?_append, List.getLast?_eq_some_getLast (List.cons_ne_nil _ _)]
      rfl
    rw [List.cons_append] at hlast
    have hstart : left.span.start = a.start := by rw [hl]; rfl
    show spanFrom left.span.start (t :: (us ++ vs)) = _
    rw [hstart, List.cons_append, spanOf, spanFrom, spanFrom, hlast]

theorem Expr.Written.span {e : Expr} (h : e.Written rules s min ts) (hts : Sorted ts) :
    e.span = spanOf ts := by
  induction h with
  | operand he => exact he.span hr hts
  | extend hl _ _ he ih =>
    exact he.span hr (ih (List.pairwise_append.1 hts).1) hl.opens.begin.ne_nil hts

end Spanning

theorem Rules.level_spanning : ∀ n, (Rules.level n).Spanning
  | 0 => ⟨Rules.level_opening 0, False.elim, False.elim⟩
  | n + 1 => by
    have hr := Rules.level_spanning n
    refine ⟨Rules.level_opening (n + 1), fun h hts => h.span hr hts, fun h hts => ?_⟩
    cases h with
    | ifExpr => rfl
    | whenExpr => rfl
    | expr he => exact he.span hr hts

/-- Every entry of a node is written as a statement. -/
theorem Statement.EntryWritten.statement {n : Nat} {st : Statement}
    (h : st.EntryWritten (Rules.level n) s ts) (hts : Sorted ts) :
    ∃ m, st.Written (Rules.level m) s ts := by
  cases h with
  | ifStmt hs => exact ⟨n, .mk (.ifStmt hs)⟩
  | pair he =>
    rw [(Rules.level_spanning n).expr he hts]
    cases n with
    | zero => cases he
    | succ n => exact ⟨n, .mk (.expr he)⟩

/-- The span of a program goes from the start of the whole source to the end of its text. -/
theorem Program.Written.span_eq {p : Program} {base : Nat} {text : String} {last : Token}
    (h : p.Written (ts ++ [last])) (hl : Lexed.ofString base text = ⟨ts, .ok last⟩) :
    p.span = ⟨0, base + text.utf8ByteSize⟩ := by
  obtain ⟨after, -, hlast⟩ := lexed_iff.1 hl
  have hstop : last.stop = base + text.utf8ByteSize := by rw [hlast]; rfl
  have hfirst : (((ts ++ [last]).head?.map Token.start).getD 0) ≤ last.stop := by
    cases ts with
    | nil => exact last.start_le_stop
    | cons t ts =>
      have hin := (Lexed.inside hl (List.mem_cons_self ..)).2
      rw [← hstop] at hin
      exact Nat.le_trans t.start_le_stop hin
  rw [h.span, List.getLast?_concat, Option.map_some, Option.getD_some, Nat.max_eq_left hfirst,
    hstop]

end Script
