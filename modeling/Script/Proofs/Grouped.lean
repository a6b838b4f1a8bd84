import Script.Proofs.Alone
import Script.Proofs.Printed.Spans
import Script.Proofs.Printed.Words
import Script.Proofs.Relaxed

/-!
Parentheses around an expression. They change where line breaks end an operand, and nothing that was
accepted without them depends on that: the expression in them is the one that stood there before.
-/
namespace Script

open Chars Lexeme

variable {source : List Char} {ts : List Token} {rules : Rules} {n : Nat}

/-- The tokens of a statement at any depth of a tree are cut from the source. -/
theorem Program.Written.statement_cut {text : String} {p : Program} {st : Statement} {last : Token}
    (hp : p.Written (ts ++ [last])) (hl : Lexed.ofString 0 text = ⟨ts, .ok last⟩)
    (hst : .statement st ∈ p.nodes) :
    ∃ n us, st.Written (Rules.level n) .item us ∧ Cut text.toList us := by
  have hcut : ts ≠ [] → Cut text.toList ts := by
    intro hts
    refine @cut_of_lexed ts [] [] text last ?_ hts
    rwa [List.nil_append, List.append_nil]
  obtain ⟨n, us, hus, hw⟩ := hp.nodes (hereditary_cut text.toList) hcut _ hst
  rcases hw with hw | hw
  · exact ⟨n, us, hw, hus hw.begin.ne_nil⟩
  · obtain ⟨pre, mid, post, hat⟩ := hus (hw.begin (Rules.level_opening n)).ne_nil
    obtain ⟨newline, hscans⟩ := hat.scans
    obtain ⟨m, hw⟩ := hw.statement hscans.sorted
    exact ⟨m, us, hw, pre, mid, post, hat⟩

/-- Positions from `k` on, told from the place right after an opening parenthesis. -/
def afterParen (k : Nat) (i : Nat) : Nat := i - k + 1

theorem ordered_afterParen (k : Nat) : Ordered (afterParen k) := ordered_place k 1

theorem rigidAt_afterParen {k pos : Nat} (h : k ≤ pos) : RigidAt (afterParen k) pos :=
  rigidAt_place h

/-- The tokens of a text in parentheses. -/
def Token.grouped (k size : Nat) (ts : List Token) : List Token :=
  ⟨.openParen, "(", 0, false⟩ ::
    (Token.refront false (ts.map (Token.move (afterParen k))) ++
      [⟨.closeParen, ")", size + 1, false⟩])

/-- What is read before a closing parenthesis is read in parentheses. -/
theorem Scans.parens {w : List Char} {us : List Token} {after : Bool}
    (h : Scans 1 false w [')'] us after) :
    ∃ last, Lexed.ofString 0 ("(" ++ String.ofList w ++ ")") =
      ⟨⟨.openParen, "(", 0, false⟩ :: (us ++ [⟨.closeParen, ")", byteLength w + 1, after⟩]),
        .ok last⟩ := by
  have hopen : Scans 0 false ['('] (w ++ [')'] ++ []) [⟨.openParen, "(", 0, false⟩] false :=
    @Scans.token 0 false false '(' [] [] _ .openParen []
      ((Word.readable_symbol (k := .openParen) rfl).scan_before rfl fun _ _ => .inr rfl) .done
  have hclose : Scans (1 + byteLength w) after [')'] []
      [⟨.closeParen, ")", 1 + byteLength w, after⟩] false :=
    @Scans.token _ after false ')' [] [] _ .closeParen []
      ((Word.readable_symbol (k := .closeParen) rfl).scan rfl) .done
  have hall := hopen.append (r := []) (h.append hclose)
  rw [Nat.add_comm 1] at hall
  exact ⟨_, lexed_iff.2 ⟨false, by simpa using hall, rfl⟩⟩

/-- Tokens that are cut from a source are read in parentheses as they were. -/
theorem CutAt.lexed_grouped {pre mid post : List Char} (h : CutAt source ts pre mid post) :
    ∃ last, Lexed.ofString 0 ("(" ++ String.ofList mid ++ ")") =
        ⟨Token.grouped (byteLength pre) (byteLength mid) ts, .ok last⟩ ∧
      RigidOn (afterParen (byteLength pre)) ts := by
  obtain ⟨newline, hscans⟩ := h.scans
  have hcalm : Calmer [] [')'] := by
    intro d hd
    obtain rfl := Option.some.inj hd
    exact .inr (by decide)
  have hscans := hscans.calmer h.stop hcalm
  obtain ⟨hmoved, hrigid⟩ := hscans.move (rigidAt_afterParen (Nat.le_refl (byteLength pre)))
  obtain ⟨t, ht, hstart⟩ := Option.map_eq_some_iff.1 h.start
  obtain ⟨ts, rfl⟩ := List.head?_eq_some_iff.1 ht
  have hfront := hmoved.restart (t := t.move (afterParen (byteLength pre)))
    (congrArg (afterParen (byteLength pre)) hstart) false
  have hone : afterParen (byteLength pre) (byteLength pre) = 1 := by
    rw [afterParen, Nat.sub_self]
  rw [hone] at hfront
  obtain ⟨last, hlexed⟩ := hfront.parens
  exact ⟨last, hlexed, hrigid⟩

theorem Token.move_afterParen {k : Nat} (h : ∀ t ∈ ts, k ≤ t.start) :
    (ts.map (Token.move (afterParen k))).map (Token.move (· + k)) =
      ts.map (Token.move (· + 1)) := by
  rw [List.map_map]
  refine List.map_congr_left fun t ht => ?_
  show { t with start := t.start - k + 1 + k } = { t with start := t.start + 1 }
  have := h t ht
  rw [Nat.add_right_comm, Nat.sub_add_cancel this]

theorem Statement.Written.expr {s : Surroundings} {e : Expr} {span : Span}
    (h : Statement.Written rules s ⟨.expr e, span⟩ ts) : e.Written rules s .group ts := by
  cases h with
  | mk hk =>
    cases hk with
    | expr he => exact he

/-- An expression statement is written in parentheses as the group of its expression. -/
theorem Statement.Written.grouped {e : Expr} {span : Span} {pre mid post : List Char}
    (h : Statement.Written (Rules.level n) .item ⟨.expr e, span⟩ ts)
    (hat : CutAt source ts pre mid post) :
    ∃ e', (∃ m, (Expr.mk (.group e') ⟨0, byteLength mid + 2⟩).Written (Rules.level m) .item .group
        (Token.grouped (byteLength pre) (byteLength mid) ts)) ∧
      e'.shift (byteLength pre) = e.shift 1 := by
  obtain ⟨last, hlexed, hrigid⟩ := hat.lexed_grouped
  obtain ⟨newline, hscans⟩ := hat.scans
  have hmoved := h.move (Rules.level_moving (ordered_afterParen (byteLength pre)) (Nat.le_refl n))
    hrigid
  rw [Statement.mapSpans_expr] at hmoved
  refine ⟨e.mapSpans (Span.move (afterParen (byteLength pre))), ?_, ?_⟩
  · have hinner : (e.mapSpans (Span.move (afterParen (byteLength pre)))).Written (Rules.level n)
        .grouped .group (Token.refront false (ts.map (Token.move (afterParen (byteLength pre))))) :=
      (hmoved.expr.loose (Rules.level_relaxing n)).refront
    obtain ⟨after, hgrouped, -⟩ := lexed_iff.1 hlexed
    have hspan : Token.spanOf (Token.grouped (byteLength pre) (byteLength mid) ts) =
        ⟨0, byteLength mid + 2⟩ := by
      have hlast : (Token.grouped (byteLength pre) (byteLength mid) ts).getLast? =
          some ⟨.closeParen, ")", byteLength mid + 1, false⟩ := by
        rw [Token.grouped, List.getLast?_cons, List.getLast?_concat, Option.getD_some]
      rw [hgrouped.sorted.spanOf_eq rfl hlast]
      rfl
    rw [← hspan]
    exact ⟨n + 1, .operand (.group rfl hinner rfl)⟩
  · -- Moved on to where both stand, the two are written as the same tokens.
    have hback := hmoved.move (Rules.level_moving (ordered_add (byteLength pre)) (Nat.le_refl n))
      fun t _ => rigidAt_add (byteLength pre) t.start
    have hone := h.move (Rules.level_moving (ordered_add 1) (Nat.le_refl n))
      fun t _ => rigidAt_add 1 t.start
    rw [Token.move_afterParen hscans.start_le, Statement.mapSpans_expr] at hback
    rw [Statement.mapSpans_expr] at hone
    have heq := hback.unique hone fun t ht => by
      obtain ⟨u, hu, rfl⟩ := List.mem_map.1 ht
      exact (hscans.mem hu).2.size
    exact StatementKind.expr.inj (congrArg Statement.kind heq)

namespace Program

/-- The text of an expression statement anywhere in a tree, put in parentheses, is a program of the
group of this expression alone, so that it is printed the same way once the parentheses are taken
off. -/
theorem parse_grouped {text : String} {p : Program} {st : Statement} {e : Expr}
    (h : parse text = .ok p) (hst : .statement st ∈ p.nodes) (he : st.kind = .expr e) :
    ∃ e', ∃ whole : Span, whole = ⟨0, (e.span.text text).utf8ByteSize + 2⟩ ∧
      parse ("(" ++ e.span.text text ++ ")") =
        .ok ⟨[⟨.expr ⟨.group e', whole⟩, whole⟩], whole⟩ ∧
      e'.shift e.span.start = e.shift 1 ∧
      ∀ indent, (⟨.group e', whole⟩ : Expr).ungrouped.print indent = e.ungrouped.print indent := by
  obtain ⟨kind, span⟩ := st
  obtain rfl : kind = .expr e := he
  obtain ⟨ts, last, hlexed, hp⟩ := parse_iff.1 h
  obtain ⟨m, us, hw, pre, mid, post, hat⟩ := hp.statement_cut hlexed hst
  obtain ⟨newline, hscans⟩ := hat.scans
  obtain rfl : span = e.span :=
    hw.span.trans (hw.expr.span (Rules.level_spanning m) hscans.sorted).symm
  obtain ⟨hplace, htext⟩ := hat.text hw
  obtain ⟨e', ⟨k, hgroup⟩, hshift⟩ := hw.grouped hat
  obtain ⟨last', hlexed', -⟩ := hat.lexed_grouped
  rw [String.ofList_toList] at htext
  have hplace : e.span.start = byteLength pre := congrArg Span.start hplace
  have hspan := hgroup.span (Rules.level_spanning k) (lexed_iff.1 hlexed').choose_spec.1.sorted
  have hlines := Statement.ListWritten.single (.mk (.expr hgroup)) (Lexed.last_kind hlexed')
  rw [← hspan] at hlines
  obtain ⟨whole, hprogram⟩ : ∃ whole, Program.Written ⟨_, whole⟩ _ := ⟨_, ⟨k + 1, hlines⟩, rfl⟩
  have hwhole : whole = ⟨0, byteLength mid + 2⟩ := by
    refine (hprogram.span_eq hlexed').trans ?_
    have hopen : "(".utf8ByteSize = 1 := rfl
    have hclose : ")".utf8ByteSize = 1 := rfl
    rw [String.utf8ByteSize_append, String.utf8ByteSize_append, utf8ByteSize_ofList mid, hopen,
      hclose, Nat.zero_add, Nat.add_comm 1]
  have htext : e.span.text text = String.ofList mid := htext
  rw [htext, utf8ByteSize_ofList, hplace]
  refine ⟨e', _, rfl, parse_iff.2 ⟨_, last', hlexed', hwhole ▸ hprogram⟩, hshift, fun indent => ?_⟩
  have hprint : e'.ungrouped.print indent = e.ungrouped.print indent := by
    rw [← Expr.print_mapSpans (Span.shift (byteLength pre)), ← Expr.ungrouped_mapSpans,
      ← Expr.shift, hshift, Expr.shift, Expr.ungrouped_mapSpans, Expr.print_mapSpans]
  rwa [Expr.ungrouped]

theorem parse_grouped_block : ∃ p st e, parse "f() \x7b\n  a -> b\n\x7d" = .ok p ∧
    .statement st ∈ p.nodes ∧ st.kind = .expr e ∧ e.span = ⟨8, 14⟩ ∧
    ∃ e', parse "(a -> b)" = .ok ⟨[⟨.expr ⟨.group e', ⟨0, 8⟩⟩, ⟨0, 8⟩⟩], ⟨0, 8⟩⟩ ∧
      e'.shift 8 = e.shift 1 := by
  have hfind : ((parse "f() \x7b\n  a -> b\n\x7d").toOption.any fun p => p.nodes.any fun
      | .statement ⟨.expr e, _⟩ => e.span == ⟨8, 14⟩
      | _ => false) = true := by decide +kernel
  obtain ⟨p, hp, hany⟩ := (Option.any_eq_true _ _).1 hfind
  obtain ⟨x, hx, hspan⟩ := List.any_eq_true.1 hany
  split at hspan
  · rename_i e span
    have hspan := beq_iff_eq.1 hspan
    have htext : e.span.text "f() \x7b\n  a -> b\n\x7d" = "a -> b" := by
      rw [hspan]
      rfl
    obtain ⟨e', whole, rfl, hparse, hshift, -⟩ := parse_grouped (eq_ok_of_toOption hp) hx rfl
    rw [htext] at hparse
    rw [hspan] at hshift
    exact ⟨p, _, e, eq_ok_of_toOption hp, hx, rfl, hspan, e', hparse, hshift⟩
  · cases hspan

end Program

end Script
