import Mathlib.Data.List.Nodup
import Script.Proofs.Breaking
import Script.Proofs.Layout
import Script.Proofs.Lexing.Gaps
import Script.Proofs.Lexing.Moves
import Script.Proofs.Seats.Statement

/-!
Line feeds in the parentheses of a group. One that is put between two tokens there tells the lexer
nothing but that the second of them begins a line, and this ends nothing. So the program stays as it
is, unless the second token is tied to the line of the first.
-/
namespace Script

open Token Chars

variable {before after ts : List Token} {t u : Token} {k n : Nat} {s : Surroundings}
  {min : Strength} {rules : Rules}

/-- In the source `a ++ g ++ b` the text `g` stands between two tokens next to each other, of which
`u` is the second. -/
structure Between (before : List Token) (u : Token) (after : List Token) (a g b : String) :
    Prop where
  lexed : ∃ last, Lexed.ofString 0 (a ++ g ++ b) = ⟨before ++ u :: after, .ok last⟩
  stop : before.getLast?.map Token.stop = some a.utf8ByteSize
  start : u.start = (a ++ g).utf8ByteSize

/-- Behind a line feed the tokens stand one byte further on, and the first of them begins a line. -/
theorem Scans.lineFeed {a g h b : List Char} {newline : Bool}
    (hscans : Scans 0 false (a ++ (g ++ h ++ b)) [] (before ++ u :: after) newline)
    (hstop : before.getLast?.map Token.stop = some (byteLength a))
    (hstart : u.start = byteLength a + byteLength (g ++ h)) (hgap : Gap b (g ++ '\n' :: h)) :
    Scans 0 false (a ++ (g ++ '\n' :: h ++ b)) []
      (before ++ Token.refront true ((u :: after).map (Token.move (· + 1)))) newline := by
  have hne : before ≠ [] := by
    rintro rfl
    cases hstop
  -- The tokens before the gap take up `a`, and those behind it begin with `b`.
  obtain ⟨a', rest, hsplit, hfront, hsize, hrest⟩ := hscans.split hne
  rw [hstop, Nat.zero_add] at hsize
  rw [Nat.zero_add] at hrest
  obtain ⟨rfl, rfl⟩ := Chars.append_inj hsplit (Option.some.inj hsize)
  obtain ⟨gap, rest, newline', hsplit, hbehind, hpos⟩ := hrest.from_token
  obtain ⟨rfl, rfl⟩ := Chars.append_inj hsplit (Nat.add_left_cancel (hstart.symm.trans hpos))
  have hmilder : Milder (g ++ h ++ b ++ []) (g ++ '\n' :: h ++ b ++ []) := by
    cases g with
    | nil => exact fun d hd => .inr (Option.some.inj hd).symm
    | cons c g => exact milder_same rfl
  obtain ⟨hmoved, -⟩ := hbehind.move (rigidAt_add 1 _)
  have hmoved := hmoved.restart (congrArg (· + 1) hpos) true
  have hbytes : byteLength a + byteLength (g ++ h) + 1 =
      byteLength a + byteLength (g ++ '\n' :: h) := by
    simp only [byteLength_append, byteLength]
    have hfeed : '\n'.utf8Size = 1 := rfl
    omega
  rw [hbytes] at hmoved
  have hbroken := Scans.of_gap ((List.append_nil b).symm ▸ hgap) (byteLength a) false
  have hfeed : (false || (g ++ '\n' :: h).contains '\n') = true := by simp
  rw [hfeed] at hbroken
  refine (hfront.milder hmilder).append ?_
  rw [Nat.zero_add]
  exact hbroken.append hmoved

theorem Between.lineFeed {a g h b : String} (hbetween : Between before u after a (g ++ h) b)
    (hgap : Gap b.toList (g ++ "\n" ++ h).toList) :
    ∃ last last', Lexed.ofString 0 (a ++ (g ++ h) ++ b) = ⟨before ++ u :: after, .ok last⟩ ∧
      Lexed.ofString 0 (a ++ (g ++ "\n" ++ h) ++ b) =
        ⟨before ++ Token.refront true ((u :: after).map (Token.move (· + 1))), .ok last'⟩ ∧
      last'.face = last.face := by
  obtain ⟨⟨last, hl⟩, hstop, hstart⟩ := hbetween
  obtain ⟨newline, hscans, rfl⟩ := lexed_iff.1 hl
  have hfeed : (g ++ "\n" ++ h).toList = g.toList ++ '\n' :: h.toList := by simp
  rw [hfeed] at hgap
  rw [String.toList_append, String.toList_append, String.toList_append, List.append_assoc] at hscans
  rw [← byteLength_toList] at hstop hstart
  rw [String.toList_append, String.toList_append, byteLength_append] at hstart
  have hbroken := hscans.lineFeed hstop hstart hgap
  rw [← hfeed, ← String.toList_append, ← String.toList_append, ← String.append_assoc] at hbroken
  exact ⟨_, _, hl, lexed_iff.2 ⟨newline, hbroken, rfl⟩, rfl⟩

/-- What a token says stays with it where a line feed is put before it. -/
theorem Token.face_lineFeed (hu : ∀ t ∈ before ++ after, t.start ≠ u.start) :
    (before ++ Token.refront true ((u :: after).map (Token.move (· + 1)))).map Token.face =
      (breakIn u.start (before ++ u :: after)).map Token.face := by
  rw [List.forall_mem_append] at hu
  rw [breakIn_append, breakIn_cons, breakIn_eq hu.1, breakIn_eq hu.2, breakAt, if_pos rfl]
  simp only [List.map_append, List.map_cons, List.map_map, Token.refront]
  rfl

/-- What a group is written as between its parentheses closes its own brackets. -/
theorem Expr.Written.parentheses {e : Expr} (h : e.Written rules s min ts) (hr : rules.Balancing)
    (hg : e.isGroup = true) :
    ∃ t us c, ts = t :: (us ++ [c]) ∧ e.span.start = t.start ∧ Balanced us ∧
      c.kind.isCloser = true := by
  cases h with
  | operand he =>
    cases he with
    | @group t c us inner ht hi hc =>
      exact ⟨t, us, c, rfl, rfl, hr.expr hi, by rw [hc]; rfl⟩
    | _ => cases hg
  | extend _ _ _ he => cases he <;> cases hg

/-- A token of a source is the only one at its position. -/
theorem Accepted.apart (x : Accepted) (hall : x.tokens = before ++ u :: after) :
    ∀ t ∈ before ++ after, t.start ≠ u.start := by
  obtain ⟨hsorted, hsize⟩ := x.placed
  rw [hall] at hsorted hsize
  exact hsorted.others hsize

/-- What begins where a token of the source does that is no string stands in no hole. -/
theorem Seat.outside {x : Accepted} {w : List Token → Prop} {o : Token} (h : Seat x s (t :: ts) w)
    (ho : o ∈ x.tokens) (hk : o.kind.isString = false) (hstart : t.start = o.start) :
    ∃ before after, x.tokens = before ++ (t :: ts ++ after) ∧
      ∀ us, Rebroken (t :: ts) us → w us →
        x.program.Written (before ++ (us ++ after) ++ [x.last]) := by
  cases h with
  | @whole before after hall _ hplug => exact ⟨before, after, hall, hplug⟩
  | @hole v before after hv hstring hr hin =>
    obtain ⟨hfirst, hlast⟩ := hin t (by simp)
    obtain ⟨-, hsize⟩ := Lexed.Part.placed ⟨before, after, hr⟩
    have hsolid : t.start < t.stop := Nat.lt_add_of_pos_right (hsize t List.mem_cons_self)
    have hsolid' : o.start < o.stop := Nat.lt_add_of_pos_right (x.placed.2 o ho)
    rcases x.placed.1.apart ho hv with rfl | hapart
    · rw [hstring] at hk
      cases hk
    · omega

/-- The group around a token that stands directly in its parentheses: where it is written, and that
it can be written anew there. -/
theorem Accepted.around (x : Accepted) (hall : x.tokens = before ++ u :: after)
    (hgroup : x.program.InGroup before) :
    ∃ (e : Expr) (n : Nat) (s : Surroundings) (min : Strength) (a d f b : List Token) (t : Token),
      before = a ++ t :: d ∧ after = f ++ b ∧ unclosed d = [] ∧
      e.isGroup = true ∧ (∀ e' ∈ e.exprs, e' ∈ x.program.exprs) ∧
      e.Written (Rules.level n) s min (t :: (d ++ u :: f)) ∧
      ∀ us, Rebroken (t :: (d ++ u :: f)) us → e.Written (Rules.level n) s min us →
        x.program.Written (a ++ (us ++ b) ++ [x.last]) := by
  obtain ⟨o, ho, e, he, hg, hopens⟩ := hgroup
  obtain ⟨hmem, hopener⟩ := mem_of_unclosed (List.mem_of_head? ho)
  have hmem : o ∈ x.tokens := hall ▸ List.mem_append_left _ hmem
  have hstring : o.kind.isString = false := by
    cases hk : o.kind <;> rw [hk] at hopener <;> first | rfl | cases hopener
  have hcontrol : ¬ e.IsControl := by
    unfold Expr.IsControl
    unfold Expr.isGroup at hg
    split at hg <;> simp_all
  obtain ⟨hinside, hseat⟩ := x.stands e he
  obtain ⟨n, s, min, ts, hw, hseat⟩ := hseat hcontrol
  obtain ⟨t, us, c, rfl, hstart, hbalanced, hclose⟩ := hw.parentheses (Rules.level_balancing n) hg
  obtain ⟨a, b, hsplit, hplug⟩ := hseat.outside hmem hstring (hstart.symm.trans hopens)
  have hnodup := x.placed.1.nodup x.placed.2
  obtain rfl : t = o :=
    List.inj_on_of_nodup_map hnodup (by simp [hsplit]) hmem (hstart.symm.trans hopens)
  obtain ⟨d, f, rfl, hparts, rfl, hd⟩ :=
    hbalanced.around hopener hclose (hall ▸ hnodup.of_map) (hall.symm.trans hsplit) ho
  rw [hparts] at hw hplug
  exact ⟨e, n, s, min, a, d, f, b, t, rfl, rfl, hd, hg, hinside, hw, hplug⟩

/-- With a line break before a token that stands directly in the parentheses of a group, a program
is written as before. -/
theorem Accepted.breakIn (x : Accepted) (hall : x.tokens = before ++ u :: after)
    (hgroup : x.program.InGroup before) (hties : ¬ x.program.Ties u) :
    x.program.Written (Token.breakIn u.start x.tokens ++ [x.last]) := by
  have hfree := x.apart hall
  obtain ⟨e, n, s, min, a, d, f, b, t, rfl, rfl, hd, hg, hinside, hw, hplug⟩ :=
    x.around hall hgroup
  have hpart : Lexed.Part x.source (d ++ u :: f) :=
    ⟨a ++ [t], b, by simpa [hall] using Lexed.Reading.whole x.lexed⟩
  have hinner : Exposed u.start (d ++ u :: f) :=
    ⟨hpart.placed.1, hpart.placed.2, hpart.placed.1.shallow hpart.placed.2 hd⟩
  have huntied : Untied u.start e.exprs :=
    fun e' he' s hs hk => hties ⟨e', hinside e' he', s, hs, hk⟩
  have hre : Rebroken (t :: (d ++ u :: f)) (Token.breakIn u.start (t :: (d ++ u :: f))) :=
    ⟨congrArg some (breakAt_ne (hfree t (by simp))), breakIn_same _⟩
  have hwritten := hplug _ hre (hw.breakInside hg hinner huntied)
  have ha : Token.breakIn u.start a = a := breakIn_eq fun v hv => hfree v (by simp [hv])
  have hb : Token.breakIn u.start b = b := breakIn_eq fun v hv => hfree v (by simp [hv])
  rw [hall]
  simpa [ha, hb] using hwritten

namespace Program

variable {a g h b : String} {p : Program}

/-- A line feed between two tokens whose innermost bracket is that of a group leaves the program as
it is up to spans, unless it cuts a comment or the second token is tied to the line of the first. -/
theorem parse_line_feed (hp : parse (a ++ (g ++ h) ++ b) = .ok p)
    (hbetween : Between before u after a (g ++ h) b) (hgroup : p.InGroup before)
    (hgap : Gap b.toList (g ++ "\n" ++ h).toList) (hties : ¬ p.Ties u) :
    ∃ q, parse (a ++ (g ++ "\n" ++ h) ++ b) = .ok q ∧ q.erase = p.erase := by
  obtain ⟨last, last', hl, hl', hlast⟩ := hbetween.lineFeed hgap
  obtain ⟨x, -, rfl, hall, rfl⟩ := accepted hp hl
  have hsize : ∀ t ∈ Token.breakIn u.start x.tokens, 0 < t.text.utf8ByteSize := by
    intro t ht
    obtain ⟨v, hv, rfl⟩ := List.mem_map.1 ht
    rw [breakAt_text]
    exact x.placed.2 v hv
  obtain ⟨c, hread⟩ := read_of_written hsize (x.breakIn hall hgroup hties)
  have hend : (Lexed.ofString 0 (a ++ (g ++ "\n" ++ h) ++ b)).last = .ok last' := by rw [hl']
  have hfaces : Places.anywhere.Like (Lexed.ofString 0 (a ++ (g ++ "\n" ++ h) ++ b)).tokens
      (Token.breakIn u.start x.tokens) := by
    rw [hl', hall]
    exact Places.like_anywhere_tokens.2 (Token.face_lineFeed (x.apart hall))
  obtain ⟨q, p, d, d', hq, hp, hlike⟩ | ⟨e, f, d, d', -, hf, -⟩ :=
    read_like hend hfaces (Places.like_anywhere_token.2 hlast)
  · obtain ⟨rfl, -⟩ := Outcome.ok.inj (hread.symm.trans hp)
    exact ⟨q, ofLexed_of_ok hend hq, Places.erase_of_like hlike⟩
  · rw [hread] at hf
    cases hf

/-- Whether `g` stands behind the first `n` tokens of a source and before the next one, where the
bracket at `k` is the innermost one that is open. -/
def standsBehind (n k : Nat) (a g b : String) : Bool :=
  let ts := (Lexed.ofString 0 (a ++ g ++ b)).tokens
  (ts.take n).getLast?.map Token.stop == some a.utf8ByteSize &&
    (ts.drop n).head?.map Token.start == some (a ++ g).utf8ByteSize &&
    (unclosed (ts.take n)).head?.map Token.start == some k

theorem exists_between {n k : Nat} (hp : parse (a ++ g ++ b) = .ok p)
    (hstands : standsBehind n k a g b = true)
    (hgroup : p.exprs.any (fun e => e.isGroup && e.span.start == k) = true) :
    ∃ before u after, Between before u after a g b ∧ p.InGroup before := by
  obtain ⟨ts, last, hl, -⟩ := parse_iff.1 hp
  simp only [standsBehind, hl, Bool.and_eq_true, beq_iff_eq] at hstands
  obtain ⟨⟨hstop, hstart⟩, hopened⟩ := hstands
  obtain ⟨u, hu, hstart⟩ := Option.map_eq_some_iff.1 hstart
  obtain ⟨after, hafter⟩ := List.head?_eq_some_iff.1 hu
  obtain ⟨o, ho, rfl⟩ := Option.map_eq_some_iff.1 hopened
  obtain ⟨e, he, hopens⟩ := List.any_eq_true.1 hgroup
  obtain ⟨hg, hspan⟩ := (Bool.and_eq_true _ _).mp hopens
  refine ⟨ts.take n, u, after, ⟨⟨last, ?_⟩, hstop, hstart⟩, o, ho, e, he, hg, beq_iff_eq.1 hspan⟩
  rw [hl, ← hafter, List.take_append_drop]

/-- A line break before an operator that would end the sum without the parentheses. -/
theorem parse_line_feed_sum : ∃ p q, parse ("(f(1)" ++ ("" ++ " ") ++ "+ b)") = .ok p ∧
    parse ("(f(1)" ++ ("" ++ "\n" ++ " ") ++ "+ b)") = .ok q ∧ q.erase = p.erase := by
  have hfind : ((parse ("(f(1)" ++ ("" ++ " ") ++ "+ b)")).toOption.any fun p =>
      p.exprs.any (fun e => e.isGroup && e.span.start == 0) &&
        p.exprs.all fun e => e.ties.all fun s => !(s.start ≤ 6 && 6 < s.stop)) = true := by
    decide +kernel
  obtain ⟨p, hp, hfound⟩ := (Option.any_eq_true _ _).1 hfind
  have hp := eq_ok_of_toOption hp
  obtain ⟨hgroup, hfree⟩ := (Bool.and_eq_true _ _).mp hfound
  obtain ⟨before, u, after, hbetween, hgroup⟩ :=
    @exists_between _ _ _ _ 5 0 hp (by decide +kernel) hgroup
  have hstart : u.start = 6 := hbetween.start.trans (by decide)
  have hties : ¬ p.Ties u := by
    rintro ⟨e, he, s, hs, hk⟩
    have hspared := List.all_eq_true.1 (List.all_eq_true.1 hfree e he) s hs
    rw [hstart] at hk
    simp [hk] at hspared
  obtain ⟨q, hq, herase⟩ := parse_line_feed hp hbetween hgroup
    (.blank rfl (.blank rfl .nil)) hties
  exact ⟨p, q, hp, hq, herase⟩

/-- Wherever `g` and `h` make up what stands between two tokens whose innermost bracket is that of a
group, a line feed between them leaves the program as it is up to spans. -/
def Indifferent (a g h b : String) : Prop :=
  ∀ p before u after, parse (a ++ (g ++ h) ++ b) = .ok p → Between before u after a (g ++ h) b →
    p.InGroup before → ∃ q, parse (a ++ (g ++ "\n" ++ h) ++ b) = .ok q ∧ q.erase = p.erase

theorem not_indifferent (n k : Nat) (hstands : standsBehind n k a (g ++ h) b = true)
    (hgroup : ((parse (a ++ (g ++ h) ++ b)).toOption.any fun p =>
      p.exprs.any fun e => e.isGroup && e.span.start == k) = true)
    (hrejected : (parse (a ++ (g ++ "\n" ++ h) ++ b)).isOk = false) : ¬ Indifferent a g h b := by
  intro hall
  obtain ⟨p, hp, hgroup⟩ := (Option.any_eq_true _ _).1 hgroup
  have hp := eq_ok_of_toOption hp
  obtain ⟨before, u, after, hbetween, hgroup⟩ := exists_between hp hstands hgroup
  obtain ⟨q, hq, -⟩ := hall p before u after hp hbetween hgroup
  rw [hq] at hrejected
  cases hrejected

/-- The segments of a name, the block after a call and a type at the front of a `when` stand on the
line before them in any brackets, and the rest of a comment that is cut is no comment. -/
theorem not_indifferent_ties : ¬ Indifferent "(a" "" "" ".b)" ∧
    ¬ Indifferent "(f()" "" " " "\x7b \x7d)" ∧
    ¬ Indifferent "(k: when var v" "" " " "int = 1; x \x7b \x7d)" ∧
    ¬ Indifferent "(a" " // " "b\n" ")" := by
  refine ⟨?_, ?_, ?_, ?_⟩
  · exact not_indifferent 2 0 (by decide +kernel) (by decide +kernel) (by decide +kernel)
  · exact not_indifferent 4 0 (by decide +kernel) (by decide +kernel) (by decide +kernel)
  · exact not_indifferent 6 0 (by decide +kernel) (by decide +kernel) (by decide +kernel)
  · exact not_indifferent 2 0 (by decide +kernel) (by decide +kernel) (by decide +kernel)

end Program

end Script
