import Script.Proofs.Extents
import Script.Proofs.Joined
import Script.Proofs.Lexing.Cuts
import Script.Proofs.Nodes.Statement

/-!
Statements on their own. The tokens of a statement, at any depth of a tree, are read again from
nothing but the bytes that they span, and what they are written as is not told by what stands around
them. So these bytes are a program of this one statement.
-/
namespace Script

open Chars

variable {source : List Char} {t : Token} {ts : List Token} {rules : Rules} {n : Nat}

/-- To be cut from a source passes to neighbours and to the tokens of holes. -/
theorem hereditary_cut (source : List Char) : Hereditary fun ts => ts ≠ [] → Cut source ts where
  part h hts := (h (by simp [hts])).part hts
  hole {t ts d h us last} hp ht hk hd hh hl hus := by
    refine @Cut.hole source t us [] [] ts last d h (hp (List.ne_nil_of_mem ht)) ht hk hd hh ?_ hus
    rwa [List.nil_append, List.append_nil]

/-- Tokens that are moved back by as many bytes as they were moved. -/
theorem Token.move_back {k : Nat} (h : ∀ t ∈ ts, k ≤ t.start) :
    (ts.map (Token.move (· - k))).map (Token.move (· + k)) = ts := by
  rw [List.map_map]
  refine (List.map_congr_left fun t ht => ?_).trans (List.map_id' ts)
  show { t with start := t.start - k + k } = t
  rw [Nat.sub_add_cancel (h t ht)]

theorem Statement.Written.span {s : Surroundings} {st : Statement} (h : st.Written rules s ts) :
    st.span = Token.spanOf ts := by
  cases h
  rfl

/-- One statement up to the end of a text is a program. -/
theorem Statement.ListWritten.single {st : Statement} (h : st.Written rules .item ts)
    (ht : t.kind = .endOfText) : Statement.ListWritten rules [st] (ts ++ [t]) := by
  have hends : EndsAll .item [t] := Delimits.endsAll (by rw [ht]; decide) (by rw [ht]; decide)
  exact .unseparated h (hends.statement st) (by rw [ht]; decide) (.inl ht) (.done ht)

/-- A text that is one expression is a program of this one statement. -/
theorem Expr.Written.parse {text : String} {ts : List Token} {last : Token} {e : Expr}
    (he : e.Written (Rules.level n) .item .group ts)
    (hl : Lexed.ofString 0 text = ⟨ts, .ok last⟩) :
    Program.parse text = .ok ⟨[⟨.expr e, e.span⟩], ⟨0, text.utf8ByteSize⟩⟩ := by
  obtain ⟨newline, hscans, -⟩ := lexed_iff.1 hl
  have hspan := he.span (Rules.level_spanning n) hscans.sorted
  have hlines := Statement.ListWritten.single (.mk (.expr he)) (Lexed.last_kind hl)
  rw [← hspan] at hlines
  obtain ⟨whole, hprogram⟩ : ∃ whole, Program.Written ⟨_, whole⟩ _ := ⟨_, ⟨n + 1, hlines⟩, rfl⟩
  have hwhole : whole = ⟨0, 0 + text.utf8ByteSize⟩ := hprogram.span_eq hl
  rw [Nat.zero_add] at hwhole
  exact Program.parse_iff.2 ⟨ts, last, hl, hwhole ▸ hprogram⟩

/-- The text that tokens were cut from is what they span. -/
theorem CutAt.spanOf {pre mid post : List Char} (h : CutAt source ts pre mid post) :
    Token.spanOf ts = ⟨byteLength pre, byteLength pre + byteLength mid⟩ ∧
      (Token.spanOf ts).text (String.ofList source) = String.ofList mid := by
  obtain ⟨newline, hscans⟩ := h.scans
  obtain ⟨t, ht, hpre⟩ := Option.map_eq_some_iff.1 h.start
  obtain ⟨u, hu, hmid⟩ := Option.map_eq_some_iff.1 h.stop
  have hspan : Token.spanOf ts = ⟨byteLength pre, byteLength pre + byteLength mid⟩ := by
    rw [hscans.sorted.spanOf_eq ht hu, hpre, hmid]
  refine ⟨hspan, ?_⟩
  rw [Span.text, hspan, String.toList_ofList, h.source, slice_append]

theorem CutAt.text {pre mid post : List Char} {st : Statement} {s : Surroundings}
    (h : CutAt source ts pre mid post) (hw : st.Written rules s ts) :
    st.span = ⟨byteLength pre, byteLength pre + byteLength mid⟩ ∧
      st.span.text (String.ofList source) = String.ofList mid := by
  rw [hw.span]
  exact h.spanOf

/-- Tokens that are cut from a source stand at the start of the text that they are cut from. -/
theorem CutAt.lexed {pre mid post : List Char} (h : CutAt source ts pre mid post) :
    ∃ last, Lexed.ofString 0 (String.ofList mid) =
        ⟨Token.refront false (ts.map (Token.move (· - byteLength pre))), .ok last⟩ ∧
      RigidOn (· - byteLength pre) ts := by
  obtain ⟨newline, hscans⟩ := h.scans
  obtain ⟨hmoved, hrigid⟩ := hscans.move (rigidAt_sub (Nat.le_refl (byteLength pre)))
  refine ⟨_, lexed_iff.2 ⟨false, ?_, rfl⟩, hrigid⟩
  rw [String.toList_ofList]
  obtain ⟨t, ht, hstart⟩ := Option.map_eq_some_iff.1 h.start
  obtain ⟨ts, rfl⟩ := List.head?_eq_some_iff.1 ht
  rw [Nat.sub_self] at hmoved
  refine hmoved.restart ?_ false
  show t.start - byteLength pre = 0
  rw [hstart, Nat.sub_self]

theorem Statement.Written.alone {st : Statement} (h : st.Written (Rules.level n) .item ts)
    (hcut : Cut source ts) :
    ∃ st' span, Program.parse (st.span.text (String.ofList source)) = .ok ⟨[st'], span⟩ ∧
      st'.shift st.span.start = st := by
  obtain ⟨pre, mid, post, hat⟩ := hcut
  obtain ⟨hspan, htext⟩ := hat.text h
  obtain ⟨last, hlexed, hrigid⟩ := hat.lexed
  obtain ⟨newline, hscans⟩ := hat.scans
  have hordered := ordered_sub (byteLength pre)
  have hmoved := h.move (Rules.level_moving hordered (Nat.le_refl n)) hrigid
  have hprogram := Statement.ListWritten.single (@Statement.Written.refront false _ _ _ _ hmoved)
    (Lexed.last_kind hlexed)
  obtain ⟨span, hparse⟩ : ∃ span, Program.parse (String.ofList mid) =
      .ok ⟨[st.mapSpans (Span.move (· - byteLength pre))], span⟩ :=
    ⟨_, Program.parse_iff.2 ⟨_, last, hlexed, ⟨n + 1, hprogram⟩, rfl⟩⟩
  refine ⟨_, span, htext ▸ hparse, ?_⟩
  -- Moved on again, the statement is written as the tokens that it was cut with.
  have hback := hmoved.move (Rules.level_moving (ordered_add (byteLength pre)) (Nat.le_refl n))
    fun t _ => rigidAt_add (byteLength pre) t.start
  rw [Token.move_back hscans.start_le] at hback
  rw [hspan]
  exact hback.unique h fun t ht => (hscans.mem ht).2.size

namespace Program

/-- The text of a statement anywhere in a tree is a program of this statement alone, which stands as
many bytes further back. -/
theorem parse_alone {text : String} {p : Program} {st : Statement} (h : parse text = .ok p)
    (hst : .statement st ∈ p.nodes) :
    ∃ st' span, parse (st.span.text text) = .ok ⟨[st'], span⟩ ∧ st'.shift st.span.start = st := by
  obtain ⟨ts, last, hlexed, hp⟩ := parse_iff.1 h
  have hcut : ts ≠ [] → Cut text.toList ts := by
    intro hts
    refine @cut_of_lexed ts [] [] text last ?_ hts
    rwa [List.nil_append, List.append_nil]
  obtain ⟨n, us, hus, hw⟩ := hp.nodes (hereditary_cut text.toList) hcut _ hst
  rw [← String.ofList_toList (s := text)]
  rcases hw with hw | hw
  · exact hw.alone (hus hw.begin.ne_nil)
  · have hcut := hus (hw.begin (Rules.level_opening n)).ne_nil
    obtain ⟨pre, mid, post, hat⟩ := hcut
    obtain ⟨newline, hscans⟩ := hat.scans
    obtain ⟨m, hw⟩ := hw.statement hscans.sorted
    exact hw.alone ⟨pre, mid, post, hat⟩

theorem parse_alone_block : ∃ p st, parse "f() \x7b\n  g(1)\n\x7d" = .ok p ∧ .statement st ∈ p.nodes ∧
    st.span.start = 8 ∧ ∃ st' span, parse (st.span.text "f() \x7b\n  g(1)\n\x7d") = .ok ⟨[st'], span⟩ ∧
      st'.shift st.span.start = st := by
  have hfind : ((parse "f() \x7b\n  g(1)\n\x7d").toOption.any fun p => p.nodes.any fun
      | .statement st => st.span.start == 8
      | _ => false) = true := by decide +kernel
  cases hp : parse "f() \x7b\n  g(1)\n\x7d" with
  | error e =>
    rw [hp] at hfind
    cases hfind
  | ok p =>
    rw [hp] at hfind
    obtain ⟨x, hx, hstart⟩ := List.any_eq_true.1 hfind
    cases x with
    | statement st => exact ⟨p, st, rfl, hx, beq_iff_eq.1 hstart, parse_alone hp hx⟩
    | object entries => cases hstart
    | literal l => cases hstart
    | whenStmt w => cases hstart

end Program

end Script
