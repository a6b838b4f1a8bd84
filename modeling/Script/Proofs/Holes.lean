import Script.Proofs.Erased
import Script.Proofs.Exprs
import Script.Proofs.Grouped
import Script.Proofs.Lexing.HoleBodies

/-!
Holes as parentheses. What stands in the braces of a hole is read like what stands in the
parentheses of a group: the end of the hole takes the place of the closing parenthesis, and nothing
in an expression tells the two apart.
-/
namespace Script

open Chars Lexeme

variable {n : Nat} {form : StringForm} {skip pos : Nat} {cs : List Char} {h : RawHole}

/-- The text of a hole stands between braces behind a dollar sign, and is read up to the second. -/
structure RawHole.Braced (h : RawHole) (pos : Nat) (cs : List Char) : Prop where
  split : ∃ pre post, cs = pre ++ '$' :: '{' :: (h.text.toList ++ '}' :: post) ∧
    h.dollar = pos + byteLength pre
  scans : ∀ pos newline, ∃ r ts after, Scans pos newline h.text.toList ('}' :: r) ts after

theorem RawHole.Braced.after {pre : List Char} (hb : h.Braced (pos + byteLength pre) cs) :
    h.Braced pos (pre ++ cs) := by
  obtain ⟨⟨w, post, rfl, hdollar⟩, hscans⟩ := hb
  refine ⟨⟨pre ++ w, post, by simp, ?_⟩, hscans⟩
  rw [hdollar, byteLength_append, Nat.add_assoc]

theorem RawHole.Braced.before (hb : h.Braced pos cs) (rest : List Char) :
    h.Braced pos (cs ++ rest) := by
  obtain ⟨⟨pre, post, rfl, hdollar⟩, hscans⟩ := hb
  exact ⟨⟨pre, post ++ rest, by simp, hdollar⟩, hscans⟩

theorem RawHole.read_braced {dollar : Nat} (hr : RawHole.read dollar cs = .ok (h, n))
    (hk : h.kind = .expr) : h.Braced dollar ('$' :: cs) := by
  obtain ⟨rest, m, rfl, hlength, rfl⟩ := RawHole.read_expr hr hk
  obtain ⟨w, r, rfl, rfl, hscans⟩ := holeLengthWithin_scans hlength
  have htake : (w ++ '}' :: r).take (w.length + 1 - 1) = w := by
    rw [Nat.add_sub_cancel, List.take_left]
  refine ⟨⟨[], r, ?_, rfl⟩, fun pos newline => ⟨r, ?_⟩⟩
  · simp
  · obtain ⟨ts, after, hscans, -⟩ := hscans pos newline
    exact ⟨ts, after, by simpa [htake] using hscans⟩

theorem RawHole.Found.braced (hf : h.Found pos cs) (hk : h.kind = .expr) : h.Braced pos cs := by
  obtain ⟨pre, rest, n, rfl, hread⟩ := hf
  exact (RawHole.read_braced hread hk).after

theorem decode_braced {literal : String} {start : Nat} {d : Decoded}
    (ho : StringForm.opening? literal.toList = some form) (hd : decode literal start = .ok d)
    (hh : .hole h ∈ d.pieces) (hk : h.kind = .expr) : h.Braced start literal.toList := by
  have hin := (decode_found (by rw [ho, Option.getD_some]) hd hh).braced hk
  obtain ⟨post, hliteral⟩ := StringForm.body_split (StringForm.opening?_isPrefix ho)
  rw [hliteral]
  exact (hin.before post).after

/-- The value in a hole, unless it is an `if` or a `when`, is an expression. -/
theorem Rules.expr_of_not_control {s : Surroundings} {min : Strength} {e : Expr} {ts : List Token}
    (h : (Rules.level n).value s min e ts) (he : ¬ e.IsControl) :
    ∃ m, (Rules.level m).expr s min e ts := by
  cases n with
  | zero => exact h.elim
  | succ n =>
    cases h with
    | ifExpr hs => exact absurd trivial he
    | whenExpr hs => exact absurd trivial he
    | expr hw => exact ⟨n + 1, hw⟩

/-- The tokens of a hole with braces are read before a closing parenthesis as they are read up to
the end of the hole. -/
theorem RawHole.Braced.scans_paren {ts : List Token} {last : Token} (hb : h.Braced pos cs)
    (hl : Lexed.ofString h.start h.text = ⟨ts, .ok last⟩) :
    ∃ after, Scans h.start false h.text.toList [')'] ts after := by
  obtain ⟨r, us, after, hscans⟩ := hb.scans h.start false
  have halone : Scans h.start false h.text.toList [] us after := hscans.milder (by simp [Milder])
  have hlexed := lexed_iff.2 ⟨after, halone, rfl⟩
  obtain rfl : ts = us := (Lexed.mk.inj (hl.symm.trans hlexed)).1
  refine ⟨after, hscans.closed (by decide) fun d hd => ?_⟩
  obtain rfl := Option.some.inj hd
  exact .inr (by decide)

/-- The part of a literal at a place among its parts stands for the piece at that place. -/
theorem StringPart.EachWritten.getElem? {rules : Rules} {xs : List Piece} {ps : List StringPart}
    (hps : StringPart.EachWritten rules xs ps) {i : Nat} {p : StringPart} (hp : ps[i]? = some p) :
    ∃ x, xs[i]? = some x ∧ p.Written rules x := by
  induction hps generalizing i with
  | nil => cases hp
  | @cons x _ xs _ hw _ ih =>
    cases i with
    | zero =>
      obtain rfl := Option.some.inj hp
      exact ⟨x, rfl, hw⟩
    | succ i => exact ih hp

/-- An expression between parentheses is a program of its group alone. -/
theorem Scans.parse_parens {w : List Char} {us : List Token} {after : Bool} {e : Expr}
    (hs : Scans 1 false w [')'] us after)
    (he : (Rules.level n).expr .grouped .group e us) :
    ∃ whole : Span, whole = ⟨0, byteLength w + 2⟩ ∧
      Program.parse ("(" ++ String.ofList w ++ ")") =
        .ok ⟨[⟨.expr ⟨.group e, whole⟩, whole⟩], whole⟩ := by
  obtain ⟨last, hlexed⟩ := hs.parens
  obtain ⟨newline, hscans, -⟩ := lexed_iff.1 hlexed
  have hgroup := @Expr.Written.operand (Rules.level n) .item .group _ _
    (@Expr.OperandWritten.group (Rules.level n) .item ⟨.openParen, "(", 0, false⟩
      ⟨.closeParen, ")", byteLength w + 1, after⟩ us e rfl he rfl)
  have hlast : (⟨.openParen, "(", 0, false⟩ :: (us ++
      [⟨.closeParen, ")", byteLength w + 1, after⟩]) : List Token).getLast? =
        some ⟨.closeParen, ")", byteLength w + 1, after⟩ := by
    rw [List.getLast?_cons, List.getLast?_concat, Option.getD_some]
  rw [hscans.sorted.spanOf_eq rfl hlast] at hgroup
  have hsize : ("(" ++ String.ofList w ++ ")").utf8ByteSize = byteLength w + 2 := by
    have hopen : "(".utf8ByteSize = 1 := rfl
    have hclose : ")".utf8ByteSize = 1 := rfl
    rw [String.utf8ByteSize_append, String.utf8ByteSize_append, utf8ByteSize_ofList w, hopen,
      hclose, Nat.add_comm 1]
  have hparse := hgroup.parse hlexed
  rw [hsize] at hparse
  exact ⟨_, rfl, hparse⟩

/-- The span of a hole between braces covers it with its dollar sign and its braces. -/
theorem RawHole.Braced.text {source : String} {pre : List Char} (hb : h.Braced pos cs)
    (hk : h.kind = .expr) (hsource : source.toList = pre ++ cs) (hpos : pos = byteLength pre) :
    h.span.text source = "$\x7b" ++ h.text ++ "\x7d" := by
  obtain ⟨⟨w, post, rfl, hdollar⟩, -⟩ := hb
  obtain ⟨kind, text, dollar⟩ := h
  obtain rfl : kind = .expr := hk
  obtain rfl : dollar = byteLength pre + byteLength w := hpos ▸ hdollar
  have hsplit : source.toList =
      (pre ++ w) ++ (("$\x7b" ++ text ++ "\x7d").toList ++ post) := by
    simp [hsource]
  have hsize : byteLength ("$\x7b" ++ text ++ "\x7d").toList = 2 + text.utf8ByteSize + 1 := by
    rw [byteLength_toList, String.utf8ByteSize_append, String.utf8ByteSize_append]
    rfl
  have hspan : RawHole.span ⟨.expr, text, byteLength pre + byteLength w⟩ =
      ⟨byteLength (pre ++ w),
        byteLength (pre ++ w) + byteLength ("$\x7b" ++ text ++ "\x7d").toList⟩ := by
    rw [hsize, byteLength_append, ← Nat.add_assoc, ← Nat.add_assoc]
    rfl
  rw [hspan, Span.text, hsplit, slice_append, String.ofList_toList]

namespace Program

/-- A literal at any depth of a tree is read from a token that stands in the source. -/
theorem literal_standing {text : String} {p : Program} {l : StringLiteral}
    (h : parse text = .ok p) (hl : .literal l ∈ p.nodes) :
    ∃ n t pre post form, l.Written (Rules.level n) t ∧
      text.toList = pre ++ (t.text.toList ++ post) ∧ t.start = byteLength pre ∧
      StringForm.opening? t.text.toList = some form := by
  obtain ⟨ts, last, hlexed, hp⟩ := parse_iff.1 h
  have hcut : ts ≠ [] → Cut text.toList ts := by
    intro hts
    refine @cut_of_lexed ts [] [] text last ?_ hts
    rwa [List.nil_append, List.append_nil]
  obtain ⟨n, t, us, hus, ht, hk, hw⟩ := hp.nodes (hereditary_cut text.toList) hcut _ hl
  obtain ⟨pre, mid, post, hat⟩ := hus (List.ne_nil_of_mem ht)
  obtain ⟨newline, hscans⟩ := hat.scans
  obtain ⟨⟨a, b, hmid, hstart⟩, hread⟩ := hscans.mem ht
  obtain ⟨form, ho, -⟩ := hread.string hk
  refine ⟨n, t, pre ++ a, b ++ post, form, hw, ?_, ?_, ho⟩
  · rw [hat.source, hmid]
    simp
  · rw [hstart, byteLength_append]

/-- Whatever expression stands in the braces of a hole, at any depth of a tree, stands there as in
parentheses, an `if` or a `when` apart: the text between the braces, blanks and comments included,
is in parentheses a program of the group of this expression alone. -/
theorem parse_hole {text : String} {p : Program} {l : StringLiteral} {i : Nat} {e : Expr}
    (h : parse text = .ok p) (hl : .literal l ∈ p.nodes) (hi : l.parts[i]? = some (.exprHole e))
    (he : ¬ e.IsControl) :
    ∃ d hole, decode (l.span.text text) l.span.start = .ok d ∧ d.pieces[i]? = some (.hole hole) ∧
      hole.span.text text = "$\x7b" ++ hole.text ++ "\x7d" ∧
      ∃ e', ∃ whole : Span, whole = ⟨0, hole.text.utf8ByteSize + 2⟩ ∧
        parse ("(" ++ hole.text ++ ")") = .ok ⟨[⟨.expr ⟨.group e', whole⟩, whole⟩], whole⟩ ∧
        e'.erase = e.erase := by
  obtain ⟨n, t, pre, post, form, hw, hsource, hstart, ho⟩ := literal_standing h hl
  cases hw with
  | @mk _ d parts hd hparts =>
    obtain ⟨x, hx, hpart⟩ := hparts.getElem? hi
    cases hpart with
    | @exprHole hole _ vs last hkind hlexed hvalue =>
      have hbraced := decode_braced ho hd (List.mem_of_getElem? hx) hkind
      have hd : decode (t.span.text text) t.span.start = .ok d := by
        rwa [Token.text_of_split hsource hstart]
      refine ⟨d, hole, hd, hx, (hbraced.before post).text hkind hsource hstart, ?_⟩
      -- The text of the hole, moved to where it stands after an opening parenthesis.
      obtain ⟨after, hscans⟩ := hbraced.scans_paren hlexed
      obtain ⟨hmoved, hrigid⟩ := hscans.move (rigidAt_afterParen (Nat.le_refl hole.start))
      have hone : afterParen hole.start hole.start = 1 := by
        rw [afterParen, Nat.sub_self]
      rw [hone] at hmoved
      obtain ⟨m, hwritten⟩ := Rules.expr_of_not_control hvalue he
      have hinner := (Rules.level_moving (ordered_afterParen hole.start) (Nat.le_refl m)).expr
        hwritten hrigid
      obtain ⟨whole, hwhole, hparse⟩ := hmoved.parse_parens hinner
      rw [String.ofList_toList] at hparse
      rw [byteLength_toList] at hwhole
      exact ⟨_, whole, hwhole, hparse, e.erase_mapSpans _⟩

/-- A hole in a literal in a hole, with a comment that has a brace in it and an operator that begins
a line. -/
theorem parse_hole_comment : ∃ p l e,
    parse "f\"$\x7bf\"$\x7ba /*\x7d*/\n + 1\x7d\"\x7d\"" = .ok p ∧ .literal l ∈ p.nodes ∧
    l.span = ⟨4, 22⟩ ∧ l.parts[0]? = some (.exprHole e) ∧
    ∃ e', parse "(a /*\x7d*/\n + 1)" = .ok ⟨[⟨.expr ⟨.group e', ⟨0, 14⟩⟩, ⟨0, 14⟩⟩], ⟨0, 14⟩⟩ ∧
      e'.erase = e.erase := by
  have hfind : ((parse "f\"$\x7bf\"$\x7ba /*\x7d*/\n + 1\x7d\"\x7d\"").toOption.any fun p =>
      p.nodes.any fun
        | .literal l => l.span == ⟨4, 22⟩ &&
          (l.parts[0]?).any fun q => q.exprs.head?.any fun e => !decide e.IsControl
        | _ => false) = true := by decide +kernel
  obtain ⟨p, hp, hany⟩ := (Option.any_eq_true _ _).1 hfind
  obtain ⟨x, hx, hlit⟩ := List.any_eq_true.1 hany
  split at hlit
  · rename_i l
    obtain ⟨hspan, hpart⟩ := (Bool.and_eq_true _ _).mp hlit
    obtain ⟨q, hq, hcontrol⟩ := (Option.any_eq_true _ _).1 hpart
    have hspan : l.span = ⟨4, 22⟩ := beq_iff_eq.1 hspan
    cases q with
    | text => cases hcontrol
    | nameHole => cases hcontrol
    | exprHole e =>
      rw [StringPart.exprs, Expr.exprs_eq] at hcontrol
      obtain ⟨d, hole, hd, hpiece, -, e', whole, hwhole, hparse, herase⟩ :=
        parse_hole (eq_ok_of_toOption hp) hx hq (by simpa using hcontrol)
      have hdecode : decode ((Span.mk 4 22).text "f\"$\x7bf\"$\x7ba /*\x7d*/\n + 1\x7d\"\x7d\"")
          4 = .ok ⟨.formatted, [.hole ⟨.expr, "a /*\x7d*/\n + 1", 6⟩]⟩ :=
        eq_ok_of_toOption (by decide +kernel)
      rw [hspan] at hd
      obtain rfl := Except.ok.inj (hdecode.symm.trans hd)
      obtain rfl := Piece.hole.inj (Option.some.inj hpiece)
      exact ⟨p, l, e, eq_ok_of_toOption hp, hx, hspan, hq, e', hwhole ▸ hparse, herase⟩
  · cases hlit

end Program

end Script
