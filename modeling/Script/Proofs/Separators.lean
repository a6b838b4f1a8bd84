import Script.Proofs.Alone
import Script.Proofs.Erased
import Script.Proofs.Printed.Words
import Script.Proofs.SameLine
import Script.Rules.Separators

/-!
Separators of lists. An item of a list is read in the same way wherever it is put between separators
of any kind: a comma ends every expression, and so does a line break, since what begins an item is
no `else` and whatever else it is goes on with nothing on another line. So it does not matter which
separators a list is spelled with.
-/
namespace Script

open Chars Lexeme

variable {source : String} {ts us : List Token} {n m : Nat} {list : ListKind} {e : Expr}
  {separator : Separator}

/-- The tokens that are read at one go are cut from the source. -/
theorem Lexed.Reading.cut (h : Lexed.Reading source ts) (hts : ts ≠ []) :
    Cut source.toList ts := by
  induction h with
  | @whole ts last h =>
    refine @cut_of_lexed ts [] [] source last ?_ hts
    rwa [List.nil_append, List.append_nil]
  | @hole ts us t last d h _ ht hk hd hh hl ih =>
    have hcut := ih (List.ne_nil_of_mem ht)
    refine @Cut.hole _ t us [] [] ts last d h hcut ht hk hd hh ?_ hts
    rwa [List.nil_append, List.append_nil]

theorem Lexed.Part.cut (h : Lexed.Part source ts) (hts : ts ≠ []) : Cut source.toList ts := by
  obtain ⟨before, after, hr⟩ := h
  exact (hr.cut (by simp [hts])).part hts

/-- No value begins with an `else`. -/
theorem Expr.ValueWritten.not_else {rules : Rules} {s : Surroundings}
    (h : e.ValueWritten rules s .group ts) : ∀ t ∈ ts.head?, t.keyword? ≠ some .elseWord := by
  cases h with
  | ifExpr hs => exact (Statement.Written.mk (.ifStmt hs)).not_else
  | whenExpr hs => exact (Statement.Written.mk (.whenStmt hs)).not_else
  | expr he => exact (Statement.Written.mk (.expr he)).not_else

/-- An item of a list, among the tokens of the list. -/
theorem Expr.Written.listItem {whole : Expr} {s : Surroundings} {min : Strength}
    (h : whole.Written (Rules.level n) s min ts) (he : e ∈ list.items whole.kind) :
    ∃ before us after, ts = before ++ (us ++ after) ∧ list.written (Rules.level n) e us := by
  cases h with
  | operand h =>
    cases h with
    | @array t us items _ hi =>
      cases list with
      | arguments => cases he
      | array =>
        obtain ⟨before, vs, after, rfl, -, hw, -⟩ :=
          hi.replace (fun _ _ _ ha hc => hc.mono ha.looser) e he
        exact ⟨t :: before, vs, after, rfl, hw⟩
    | _ => cases list <;> cases he
  | @extend left _ o t us vs _ _ _ h =>
    cases h with
    | @call args body _ ws xs _ ha =>
      cases list with
      | array => cases he
      | arguments =>
        obtain ⟨before, ys, after, rfl, -, hw, -⟩ :=
          ha.replace (fun _ _ _ ha hc => hc.mono ha.looser) e he
        exact ⟨us ++ t :: before, ys, after ++ xs, by simp, hw⟩
    | _ => cases list <;> cases he

namespace ListKind

theorem written.value (h : list.written (Rules.level n) e ts) :
    ∃ m, e.ValueWritten (Rules.level m) .item .group ts := by
  cases n with
  | zero => cases list <;> exact h.elim
  | succ n =>
    cases list with
    | array => exact ⟨n, h⟩
    | arguments => exact ⟨n, .expr h⟩

theorem written.move {σ : Nat → Nat} (h : list.written (Rules.level n) e ts) (ho : Ordered σ)
    (hnm : n ≤ m) (hts : RigidOn σ ts) :
    list.written (Rules.level m) (e.mapSpans (Span.move σ)) (ts.map (Token.move σ)) := by
  have hr := Rules.level_moving ho hnm
  cases list with
  | array => exact hr.value h hts
  | arguments => exact hr.expr h hts

theorem written.refront {newline : Bool} (h : list.written (Rules.level n) e ts) :
    list.written (Rules.level n) e (Token.refront newline ts) := by
  cases n with
  | zero => cases list <;> exact h.elim
  | succ n =>
    cases list with
    | array => exact Expr.ValueWritten.refront h
    | arguments => exact Expr.Written.refront h

theorem ends_of_final {r : List Token} (h : Final .item r) (e : Expr) : list.ends r e := by
  cases list with
  | array => exact h.closesValue e .group
  | arguments => exact h.closes e .group

/-- A text that is read as an item of a list at any place, before whatever goes on with no token. -/
def Reads (list : ListKind) (n : Nat) (cs : List Char) (e : Expr) : Prop :=
  ∀ m, n ≤ m → ∀ pos newline, ∃ e' t ts, t.newlineBefore = newline ∧
    (∀ r, Calmer [] r → Scans pos newline cs r (t :: ts) false) ∧
    list.written (Rules.level m) e' (t :: ts) ∧ e'.erase = e.erase

theorem reads_of_cut {source pre mid post : List Char} (h : CutAt source ts pre mid post)
    (hw : list.written (Rules.level n) e ts) : list.Reads n mid e := by
  intro m hnm pos newline
  obtain ⟨before, hscans⟩ := h.scans
  obtain ⟨t, ht, hstart⟩ := Option.map_eq_some_iff.1 h.start
  obtain ⟨us, rfl⟩ := List.head?_eq_some_iff.1 ht
  have hplace : RigidAt (fun i => i - byteLength pre + pos) (byteLength pre) :=
    rigidAt_place (Nat.le_refl _)
  have hpos : byteLength pre - byteLength pre + pos = pos := by omega
  obtain ⟨-, hrigid⟩ := hscans.move hplace
  refine ⟨_, { t.move (fun i => i - byteLength pre + pos) with newlineBefore := newline },
    us.map (Token.move fun i => i - byteLength pre + pos), rfl, fun r hr => ?_,
    (hw.move (ordered_place (byteLength pre) pos) hnm hrigid).refront, e.erase_mapSpans _⟩
  obtain ⟨hmoved, -⟩ := (hscans.calmer h.stop hr).move hplace
  rw [hpos] at hmoved
  refine hmoved.restart ?_ newline
  show t.start - byteLength pre + pos = pos
  rw [hstart, hpos]

theorem HasItem.reads {item : ListItem} (h : list.HasItem item) :
    ∃ n, list.Reads n item.text.toList item.expr := by
  obtain ⟨text, e⟩ := item
  obtain ⟨source, p, whole, hp, hwhole, he, htext⟩ := h
  obtain rfl : text = e.span.text source := htext
  obtain ⟨ts, last, hl, -⟩ := Program.parse_iff.1 hp
  obtain ⟨x, rfl, rfl, -, -⟩ := Program.accepted hp hl
  have hcontrol : ¬ whole.IsControl := by
    obtain ⟨kind, span⟩ := whole
    intro hc
    cases kind <;> cases hc <;> cases list <;> cases he
  obtain ⟨n, s, min, us, hw, hseat⟩ := (x.stands whole hwhole).seat hcontrol
  obtain ⟨before, vs, after, rfl, hitem⟩ := hw.listItem he
  obtain ⟨m, hvalue⟩ := hitem.value
  have hpart := (Lexed.hereditary_part x.source).part hseat.part
  obtain ⟨pre, mid, post, hat⟩ := hpart.cut hvalue.begin.ne_nil
  obtain ⟨hspan, hmid⟩ := hat.spanOf
  have hvs : e.span = Token.spanOf vs :=
    (Rules.level_spanning (m + 1)).value hvalue hpart.placed.1
  rw [String.ofList_toList, ← hvs] at hmid
  refine ⟨n, ?_⟩
  show list.Reads n (e.span.text x.source).toList e
  rw [hmid, String.toList_ofList]
  exact reads_of_cut hat hitem

/-- Tokens that are the rest of a list, on the line of the token before them or not. -/
structure Rest (list : ListKind) (n : Nat) (es : List Expr) (newline : Bool) (ts : List Token) :
    Prop where
  written : ListWritten [.comma] list.close (list.written (Rules.level n)) list.ends es ts
  front : ∃ t us, ts = t :: us ∧ t.newlineBefore = newline ∧ t.kind ≠ .comma ∧
    t.keyword? ≠ some .elseWord

/-- Tokens with which a list goes on behind any item. -/
def Follows (list : ListKind) (n : Nat) (es : List Expr) (r : List Token) : Prop :=
  ∀ e ts, list.written (Rules.level n) e ts →
    ListWritten [.comma] list.close (list.written (Rules.level n)) list.ends (e :: es) (ts ++ r)

/-- Whatever separates them, a list goes on with its rest. -/
theorem Rest.follows {es : List Expr} (h : list.Rest n es separator.breaks ts) (pos : Nat)
    (newline : Bool) : list.Follows n es (separator.tokens pos newline ++ ts) := by
  obtain ⟨hlist, t, us, rfl, hline, hcomma, helse⟩ := h
  intro e vs he
  have hfinal : ∀ r, Final .item (⟨.comma, ",", pos, newline⟩ :: r) := by
    intro r
    apply Delimits.final
    show Delimits .comma
    decide
  have hseparated : ListWritten [.comma] list.close (list.written (Rules.level n)) list.ends
      (e :: es) (vs ++ ⟨.comma, ",", pos, newline⟩ :: t :: us) :=
    .separated he (ends_of_final (hfinal _) e) (by simp) hlist
  cases separator with
  | comma => exact hseparated
  | commaLineFeed => exact hseparated
  | lineFeed =>
    have hfinal : Final .item (t :: us) := final_of_break rfl hline (not_atElse_of_word helse)
    exact .unseparated he (ends_of_final hfinal e) (by simpa using hcomma) (.inr hline) hlist

theorem rest_done (pos : Nat) (newline : Bool) :
    list.Rest n [] newline [⟨list.close, list.closer, pos, newline⟩] where
  written := .done rfl
  front := by
    have hcomma : list.close ≠ .comma := by
      cases list <;> decide
    refine ⟨_, [], rfl, rfl, hcomma, fun hk => ?_⟩
    · have hident : list.close = .ident := Token.kind_of_keyword? hk
      cases list <;> cases hident

theorem Follows.rest {es : List Expr} {r : List Token} {t : Token} (h : list.Follows n es r)
    (hw : list.written (Rules.level n) e (t :: ts)) :
    list.Rest n (e :: es) t.newlineBefore (t :: ts ++ r) where
  written := h e _ hw
  front := by
    obtain ⟨m, hvalue⟩ := hw.value
    obtain ⟨u, us, hcons, hbegin⟩ := hvalue.begin
    obtain ⟨rfl, rfl⟩ := List.cons.inj hcons
    exact ⟨t, ts ++ r, rfl, rfl, hbegin.2.2.2.1, hvalue.not_else t rfl⟩

end ListKind

/-- A separator is read in front of anything. -/
theorem Separator.scans (separator : Separator) (pos : Nat) (newline : Bool) (r : List Char) :
    Scans pos newline separator.text.toList r (separator.tokens pos newline) separator.breaks := by
  have hcomma : ∀ r, scan holeLength ',' r = .ok (.token .comma, 0) := by
    intro r
    rfl
  cases separator with
  | comma => exact @Scans.token pos newline false ',' [] [] r .comma [] (hcomma _) .done
  | lineFeed =>
    have hbreak : (newline || '\n' == '\n') = true := Bool.or_true newline
    have hdone : Scans (pos + '\n'.utf8Size) (newline || '\n' == '\n') [] r [] true := by
      rw [hbreak]
      exact .done
    exact .blank rfl hdone
  | commaLineFeed =>
    exact @Scans.token pos newline true ',' [] ['\n'] r .comma [] (hcomma _) (.blank rfl .done)

/-- What is read before a text that is read to its end. -/
theorem Scans.append_nil {pos : Nat} {newline middle after : Bool} {cs cs' : List Char}
    (h : Scans pos newline cs cs' ts middle)
    (h' : Scans (pos + byteLength cs) middle cs' [] us after) :
    Scans pos newline (cs ++ cs') [] (ts ++ us) after := by
  refine Scans.append ?_ h'
  rwa [List.append_nil]

theorem Separator.calmer (separator : Separator) (cs : List Char) :
    Calmer [] (separator.text.toList ++ cs) := by
  intro d hd
  cases separator <;> obtain rfl := Option.some.inj hd <;> exact .inr (by decide)

namespace ListKind

/-- The token that closes a list. -/
theorem closer_scans (list : ListKind) (pos : Nat) (newline : Bool) :
    Scans pos newline list.closer.toList [] [⟨list.close, list.closer, pos, newline⟩] false := by
  cases list with
  | array =>
    exact @Scans.token pos newline false ']' [] [] [] .closeBracket []
      ((Word.readable_symbol (k := .closeBracket) rfl).scan rfl) .done
  | arguments =>
    exact @Scans.token pos newline false ')' [] [] [] .closeParen []
      ((Word.readable_symbol (k := .closeParen) rfl).scan rfl) .done

theorem closer_calmer (list : ListKind) : Calmer [] list.closer.toList := by
  intro d hd
  cases list <;> obtain rfl := Option.some.inj hd <;> exact .inr (by decide)

variable {trailing : Option Separator} {rest : List (Separator × ListItem)}

theorem spellRest_calmer (list : ListKind) (trailing : Option Separator)
    (rest : List (Separator × ListItem)) :
    Calmer [] (spellRest trailing rest ++ list.closer).toList := by
  rw [String.toList_append]
  cases rest with
  | nil =>
    cases trailing with
    | none => exact list.closer_calmer
    | some separator => exact separator.calmer _
  | cons x rest =>
    rw [spellRest, String.toList_append, List.append_assoc]
    exact x.1.calmer _

/-- A list goes on with the token that closes it. -/
theorem follows_close (pos : Nat) (newline : Bool) :
    list.Follows n [] [⟨list.close, list.closer, pos, newline⟩] := by
  intro e ts he
  have hdelimits : Delimits list.close ∧ list.close ∉ [TokenKind.comma] := by
    cases list <;> decide
  exact .unseparated he (ends_of_final (Delimits.final hdelimits.1) e) hdelimits.2 (.inl rfl)
    (.done rfl)

/-- What stands behind an item is read as tokens with which its list goes on, up to the one that
closes it. -/
theorem spellRest_scans (hrest : ∀ x ∈ rest, list.Reads n x.2.text.toList x.2.expr) (pos : Nat)
    (newline : Bool) :
    ∃ r es, Scans pos newline (spellRest trailing rest ++ list.closer).toList [] r false ∧
      list.Follows n es r ∧ es.map Expr.erase = rest.map (·.2.expr.erase) ∧
      r.getLast?.map Token.stop =
        some (pos + (spellRest trailing rest ++ list.closer).utf8ByteSize) := by
  simp only [String.toList_append, String.utf8ByteSize_append]
  induction rest generalizing pos newline with
  | nil =>
    cases trailing with
    | none =>
      refine ⟨_, [], list.closer_scans pos newline, follows_close pos newline, rfl, ?_⟩
      rw [List.getLast?_singleton, Option.map_some, spellRest, Option.map_none, Option.getD_none,
        String.utf8ByteSize_empty, Nat.zero_add]
      rfl
    | some separator =>
      have hclose := list.closer_scans (pos + byteLength separator.text.toList) separator.breaks
      refine ⟨_, [], (separator.scans pos newline _).append_nil hclose,
        (rest_done _ _).follows pos newline, rfl, ?_⟩
      rw [List.getLast?_concat, byteLength_toList]
      exact congrArg some (Nat.add_assoc ..)
  | cons x rest ih =>
    obtain ⟨separator, item⟩ := x
    obtain ⟨hread, hrest⟩ := List.forall_mem_cons.1 hrest
    obtain ⟨e, t, ts, hline, hitem, hwritten, herase⟩ := hread n (Nat.le_refl n)
      (pos + byteLength separator.text.toList) separator.breaks
    obtain ⟨r, es, hscans, hfollows, hes, hlast⟩ := ih hrest
      (pos + byteLength separator.text.toList + byteLength item.text.toList) false
    have hcalmer := list.spellRest_calmer trailing rest
    rw [String.toList_append] at hcalmer
    have htail := (hitem _ hcalmer).append_nil hscans
    have hlist := hfollows.rest hwritten
    rw [hline] at hlist
    refine ⟨_, e :: es, ?_, hlist.follows pos newline, ?_, ?_⟩
    · rw [spellRest, String.toList_append, String.toList_append, List.append_assoc,
        List.append_assoc]
      exact (separator.scans pos newline _).append_nil htail
    · rw [List.map_cons, List.map_cons, hes, herase]
    · obtain ⟨u, hu, hstop⟩ := Option.map_eq_some_iff.1 hlast
      rw [List.getLast?_append, List.getLast?_append, hu, Option.some_or, Option.some_or,
        Option.map_some, hstop, spellRest, String.utf8ByteSize_append, String.utf8ByteSize_append,
        byteLength_toList, byteLength_toList]
      simp only [Nat.add_assoc]

/-- Finitely many items are read at one level of nesting. -/
theorem reads_all {items : List ListItem} (h : ∀ item ∈ items, list.HasItem item) :
    ∃ n, ∀ item ∈ items, list.Reads n item.text.toList item.expr := by
  induction items with
  | nil => exact ⟨0, nofun⟩
  | cons item items ih =>
    rw [List.forall_mem_cons] at h
    obtain ⟨n, hn⟩ := h.1.reads
    obtain ⟨m, hm⟩ := ih h.2
    refine ⟨max n m, List.forall_mem_cons.2 ⟨fun k hk => hn k ?_, fun x hx k hk => hm x hx k ?_⟩⟩
    · exact Nat.le_trans (Nat.le_max_left n m) hk
    · exact Nat.le_trans (Nat.le_max_right n m) hk

/-- The tokens with which a list begins. -/
def front : ListKind → List Token
  | array => [⟨.openBracket, "[", 0, false⟩]
  | arguments => [⟨.ident, "f", 0, false⟩, ⟨.openParen, "(", 1, false⟩]

theorem opener_scans (list : ListKind) (r : List Char) :
    Scans 0 false list.opener.toList r list.front false := by
  cases list with
  | array =>
    have hbracket : scan holeLength '[' r = .ok (.token .openBracket, 0) :=
      (Word.readable_symbol (k := .openBracket) rfl).scan_before rfl fun _ _ => .inr rfl
    exact @Scans.token 0 false false '[' [] [] r .openBracket [] hbracket .done
  | arguments =>
    have hparen : scan holeLength '(' r = .ok (.token .openParen, 0) :=
      (Word.readable_symbol (k := .openParen) rfl).scan_before rfl fun _ _ => .inr rfl
    have hname : scan holeLength 'f' ('(' :: r) = .ok (.token .ident, 0) := by
      refine @Word.Readable.scan_before ⟨.ident, "f"⟩ 'f' [] ('(' :: r) ⟨'f', [], rfl, rfl⟩ rfl ?_
      intro d hd
      obtain rfl := Option.some.inj hd
      exact .inl (by decide)
    exact @Scans.token 0 false false 'f' [] ['('] r .ident _ hname
      (@Scans.token 1 false false '(' [] [] r .openParen [] hparen .done)

theorem build_written {items : List Expr}
    (h : ListWritten [.comma] list.close (list.written (Rules.level n)) list.ends items ts) :
    ∃ span, (list.build items span).Written (Rules.level n) .item .group (list.front ++ ts) := by
  cases list with
  | array => exact ⟨_, .operand (.array rfl h)⟩
  | arguments =>
    have hident : Ident.Written ⟨"f", ⟨0, 1⟩⟩ ⟨.ident, "f", 0, false⟩ := ⟨rfl, rfl⟩
    have hname : Name.Written ⟨false, [⟨"f", ⟨0, 1⟩⟩], ⟨0, 1⟩⟩ [⟨.ident, "f", 0, false⟩] :=
      .absolute hident .nil
    have hfree : ∀ t ∈ [(⟨.ident, "f", 0, false⟩ : Token)].head?, ∀ word,
        t.keyword? = some word → Parser.literalWord? word = none ∧ word.isSoft = true := by
      intro t ht word hw
      obtain rfl := Option.some.inj ht
      cases hw
    have hends : Expr.EndsBefore .item (⟨.openParen, "(", 1, false⟩ :: (ts ++ []))
        ⟨.name ⟨false, [⟨"f", ⟨0, 1⟩⟩], ⟨0, 1⟩⟩, ⟨0, 1⟩⟩ :=
      not_continues (.inl (by decide))
    have hcall := Expr.Written.extend (.operand (.name ⟨hname, hfree⟩)) hends
      (⟨rfl, rfl, by decide⟩ : Applies .item .group ⟨.openParen, "(", 1, false⟩ _)
      (.call rfl h .none)
    rw [List.append_nil] at hcall
    exact ⟨_, hcall⟩

end ListKind

namespace Program

open ListKind

/-- Expressions that are items of arrays, or arguments of calls, are the items of the list that is
spelled with their texts, whatever separators stand between them and behind the last one. -/
theorem parse_separated {first : ListItem} {rest : List (Separator × ListItem)}
    (trailing : Option Separator) (h : ∀ item ∈ first :: rest.map Prod.snd, list.HasItem item) :
    ∃ items whole, whole = ⟨0, (list.spell first rest trailing).utf8ByteSize⟩ ∧
      parse (list.spell first rest trailing) =
        .ok ⟨[⟨.expr (list.build items whole), whole⟩], whole⟩ ∧
      items.map Expr.erase = (first :: rest.map Prod.snd).map (·.expr.erase) := by
  obtain ⟨n, hreads⟩ := reads_all h
  obtain ⟨hfirst, hrest⟩ := List.forall_mem_cons.1 hreads
  have hrest : ∀ x ∈ rest, list.Reads n x.2.text.toList x.2.expr :=
    fun x hx => hrest x.2 (List.mem_map_of_mem hx)
  obtain ⟨e, t, ts, -, hitem, hwritten, herase⟩ := hfirst n (Nat.le_refl n)
    (0 + byteLength list.opener.toList) false
  obtain ⟨r, es, hscans, hfollows, hes, hlast⟩ := @spellRest_scans n list trailing rest hrest
    (0 + byteLength list.opener.toList + byteLength first.text.toList) false
  have hall := (list.opener_scans _).append_nil
    ((hitem _ (list.spellRest_calmer trailing rest)).append_nil hscans)
  obtain ⟨whole, hlist⟩ := build_written (hfollows e (t :: ts) hwritten)
  have htext : list.opener.toList ++
      (first.text.toList ++ (spellRest trailing rest ++ list.closer).toList) =
        (list.spell first rest trailing).toList := by
    simp only [spell, String.toList_append]
  have hsize : byteLength list.opener.toList + (byteLength first.text.toList +
      (spellRest trailing rest ++ list.closer).utf8ByteSize) =
        (list.spell first rest trailing).utf8ByteSize := by
    simp only [spell, String.utf8ByteSize_append, byteLength_toList]
  rw [htext] at hall
  rw [Nat.zero_add, Nat.add_assoc, hsize] at hlast
  have hspan := hlist.span (Rules.level_spanning n) hall.sorted
  have hbuild : (list.build (e :: es) whole).span = whole := by
    cases list <;> rfl
  -- The list spans its text, from its first token to the one that closes it.
  obtain ⟨u, hu, hstop⟩ := Option.map_eq_some_iff.1 hlast
  obtain ⟨v, hv, hstart⟩ : ∃ v, (list.front ++ (t :: ts ++ r)).head? = some v ∧ v.start = 0 := by
    cases list <;> exact ⟨_, rfl, rfl⟩
  have hend : (list.front ++ (t :: ts ++ r)).getLast? = some u := by
    rw [List.getLast?_append, List.getLast?_append, hu, Option.some_or, Option.some_or]
  rw [hbuild, hall.sorted.spanOf_eq hv hend, hstart, hstop] at hspan
  have hparse := hlist.parse (lexed_iff.2 ⟨false, hall, rfl⟩)
  rw [hbuild] at hparse
  refine ⟨e :: es, whole, hspan, hspan ▸ hparse, ?_⟩
  rw [List.map_cons, List.map_cons, List.map_map, herase, hes]
  rfl

/-- Line breaks before a minus sign and before a parenthesis, neither of which goes on with the item
on the line before. -/
theorem parse_separated_breaks : ∃ a b c, HasItem .array ⟨"a", a⟩ ∧ HasItem .array ⟨"-b", b⟩ ∧
    HasItem .array ⟨"(c)", c⟩ ∧
    ∃ items, parse "[a\n-b\n(c),\n]" = .ok ⟨[⟨.expr ⟨.array items, ⟨0, 12⟩⟩, ⟨0, 12⟩⟩], ⟨0, 12⟩⟩ ∧
      items.map Expr.erase = [a.erase, b.erase, c.erase] := by
  have hfind : ((parse "[a, -b, (c)]").toOption.any fun p => p.exprs.any fun e =>
      (ListKind.array.items e.kind).map Expr.span == [⟨1, 2⟩, ⟨4, 6⟩, ⟨8, 11⟩]) = true := by
    decide +kernel
  obtain ⟨p, hp, hany⟩ := (Option.any_eq_true _ _).1 hfind
  obtain ⟨e, he, hspans⟩ := List.any_eq_true.1 hany
  obtain ⟨a, as, hitems, ha, has⟩ := List.map_eq_cons_iff.1 (beq_iff_eq.1 hspans)
  obtain ⟨b, bs, rfl, hb, hbs⟩ := List.map_eq_cons_iff.1 has
  obtain ⟨c, cs, rfl, hc, hcs⟩ := List.map_eq_cons_iff.1 hbs
  have hitem : ∀ text x, x ∈ ListKind.array.items e.kind →
      text = x.span.text "[a, -b, (c)]" → HasItem .array ⟨text, x⟩ :=
    fun text x hx htext => ⟨_, p, e, eq_ok_of_toOption hp, he, hx, htext⟩
  have ha : HasItem .array ⟨"a", a⟩ := hitem "a" a (by simp [hitems]) (by rw [ha]; decide)
  have hb : HasItem .array ⟨"-b", b⟩ := hitem "-b" b (by simp [hitems]) (by rw [hb]; decide)
  have hc : HasItem .array ⟨"(c)", c⟩ := hitem "(c)" c (by simp [hitems]) (by rw [hc]; decide)
  obtain ⟨items, whole, hwhole, hparse, herase⟩ := @parse_separated .array ⟨"a", a⟩
    [(.lineFeed, ⟨"-b", b⟩), (.lineFeed, ⟨"(c)", c⟩)] (some .commaLineFeed) (by simp [ha, hb, hc])
  have hsize : (spell .array ⟨"a", a⟩ [(.lineFeed, ⟨"-b", b⟩), (.lineFeed, ⟨"(c)", c⟩)]
      (some .commaLineFeed)).utf8ByteSize = 12 := rfl
  rw [hsize] at hwhole
  obtain rfl := hwhole
  exact ⟨a, b, c, ha, hb, hc, items, hparse, herase⟩

end Program

end Script
