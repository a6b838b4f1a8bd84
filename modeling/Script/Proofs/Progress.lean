import Script.Proofs.Progress.Statement
import Script.Proofs.Shifted

/-!
Reading makes progress. Whatever is read successfully takes a token, every step of a loop takes one
or ends the loop, and a hole lies strictly inside its literal; so a source is read to an end within
a number of calls that its length bounds.
-/
namespace Script

open Chars Program

variable {source : String} {ts us vs : List Token} {c c' : Cursor}

/-- A cursor into a token list, with the tokens `us` before it. It stands on one of the others. -/
structure Cursor.Into (ts us : List Token) (c : Cursor) : Prop where
  rest : ts = us ++ c.rest
  before : c.before = us.getLast?

theorem Cursor.Into.start (tokens : List Token) (last : Token) :
    (Cursor.start tokens last).Into (tokens ++ [last]) [] where
  rest := (Cursor.start_rest tokens last).symm
  before := by cases tokens <;> rfl

theorem Cursor.Into.takes (h : c.Into ts us) (hc : c.Takes vs c') : c'.Into ts (us ++ vs) where
  rest := by rw [h.rest, hc.rest, List.append_assoc]
  before := by rw [hc.before, h.before, List.getLast?_append]

/-- A token list as reading needs it: the end token is last, and no other token is empty. -/
structure Token.Closed (ts : List Token) : Prop where
  last : ts.getLast?.map Token.kind = some .endOfText
  size : ∀ t ∈ ts, t.kind ≠ .endOfText → 0 < t.text.utf8ByteSize

theorem Token.Closed.sound (h : Token.Closed ts) (hc : c.Into ts us) : c.Sound where
  ended := by
    have hlast := h.last
    rw [hc.rest, List.getLast?_append, List.getLast?_eq_some_getLast c.rest_ne_nil] at hlast
    rw [Cursor.Ended, List.getLast?_eq_some_getLast c.rest_ne_nil]
    exact hlast
  size t ht := h.size t (by rw [hc.rest]; exact List.mem_append_right _ ht)

theorem tokenizeRange_closed {start stop : Nat} (h : tokenizeRange source start stop = .ok ts) :
    Token.Closed ts := by
  obtain ⟨tokens, last, rfl, hl⟩ := tokenizeRange_ok h
  refine ⟨by simp [Lexed.last_kind hl], fun t ht hk => ?_⟩
  rcases List.mem_append.1 ht with ht | ht
  · exact (Lexed.tokens_size hl).2 t ht
  · rw [List.mem_singleton.1 ht] at hk
    exact absurd (Lexed.last_kind hl) hk

section Steps

variable {α : Type} {n : Nat} {s : Surroundings}

/-- A success leaves the cursor further on in the same token list. -/
def Outcome.Advances (ts us : List Token) (o : Outcome α) : Prop :=
  ∀ a c', o = .ok a c' → ∃ vs, vs ≠ [] ∧ c'.Into ts (us ++ vs)

/-- A step of a loop leaves the cursor further on, or it ends the loop. -/
def Outcome.AdvancesOrEnds (ts us : List Token) (o : Outcome (Option α)) : Prop :=
  ∀ x c', o = .ok x c' → x = none ∨ ∃ vs, vs ≠ [] ∧ c'.Into ts (us ++ vs)

/-- What is paid for was taken. -/
theorem Parser.Paid.taken {m e : Nat} {d : α → Nat} {p : Nested → Parser α} (h : Paid n m e d p)
    (hts : Token.Closed ts) (hc : c.Into ts us) (hw : c.weight < m) {a : α}
    (ho : p (Nested.level n) s c = .ok a c') (ha : 0 < d a) :
    ∃ vs, vs ≠ [] ∧ c'.Into ts (us ++ vs) := by
  obtain ⟨qs, k, -, -, hpays⟩ := h s c (hts.sound hc) hw
  dsimp only at hpays
  rw [ho] at hpays
  cases hpays with
  | @ok _ _ vs htakes hk =>
    refine ⟨vs, fun hnil => ?_, hc.takes htakes⟩
    simp only [hnil, Token.weight] at hk
    omega

theorem Parser.Leads.taken {p : Nested → Parser α} (h : Leads n p) (hts : Token.Closed ts)
    (hc : c.Into ts us) (hw : c.weight ≤ n) : (p (Nested.level n) s c).Advances ts us :=
  fun _ _ ho => Paid.taken h hts hc (Nat.lt_succ_of_le hw) ho Nat.two_pos

theorem Parser.Iterates.taken {p : Nested → Parser (Option α)} (h : Iterates n p)
    (hts : Token.Closed ts) (hc : c.Into ts us) (hw : c.weight < n) :
    (p (Nested.level n) s c).AdvancesOrEnds ts us := by
  intro x c' ho
  cases x with
  | none => exact .inl rfl
  | some a => exact .inr (Paid.taken h hts hc hw ho Nat.one_pos)

/-- At a cursor, each parser of a construct advances where it succeeds. -/
structure Parser.Constructs (ts us : List Token) (nested : Nested) (s : Surroundings) (c : Cursor) :
    Prop where
  expr : ∀ min, (expr nested min s c).Advances ts us
  operand : (operand nested s c).Advances ts us
  value : ∀ min, (value nested min s c).Advances ts us
  arguments : (arguments nested s c).Advances ts us
  block : (block nested s c).Advances ts us
  ident : (ident s c).Advances ts us
  name : (name s c).Advances ts us
  typeRef : (typeRef s c).Advances ts us
  statement : (statement nested s c).Advances ts us
  exprStatement : (exprStatement nested s c).Advances ts us
  ifStmt : (ifStmt nested s c).Advances ts us
  forStmt : (forStmt nested s c).Advances ts us
  whenStmt : (whenStmt nested s c).Advances ts us
  whenCase : (whenCase nested s c).Advances ts us
  caseBody : (caseBody nested s c).Advances ts us
  varDecl : (varDecl nested s c).Advances ts us
  useDecl : (useDecl s c).Advances ts us
  importDecl : (importDecl nested s c).Advances ts us
  fnDecl : (fnDecl nested s c).Advances ts us
  param : (param s c).Advances ts us
  nodeDecl : (nodeDecl nested s c).Advances ts us
  property : (property s c).Advances ts us
  typeDecl : (typeDecl s c).Advances ts us
  fieldDecl : (fieldDecl s c).Advances ts us
  enumDecl : (enumDecl nested s c).Advances ts us
  enumMember : (enumMember nested s c).Advances ts us

/-- At a cursor, each step of a loop advances or ends the loop. -/
structure Parser.Loops (ts us : List Token) (nested : Nested) (s : Surroundings) (c : Cursor) :
    Prop where
  statements : ∀ separators close,
    (listStep separators close nested.statement s c).AdvancesOrEnds ts us
  exprs : ∀ separators close,
    (listStep separators close (nested.expr .group) s c).AdvancesOrEnds ts us
  values : ∀ separators close,
    (listStep separators close (nested.value .group) s c).AdvancesOrEnds ts us
  params : ∀ separators close, (listStep separators close param s c).AdvancesOrEnds ts us
  properties : ∀ separators close, (listStep separators close property s c).AdvancesOrEnds ts us
  nodeEntries : ∀ separators close,
    (listStep separators close (nodeEntry nested) s c).AdvancesOrEnds ts us
  fieldDecls : ∀ separators close, (listStep separators close fieldDecl s c).AdvancesOrEnds ts us
  enumMembers : ∀ separators close,
    (listStep separators close (enumMember nested) s c).AdvancesOrEnds ts us
  operators : ∀ min left, (climb nested min left s c).AdvancesOrEnds ts us
  segments : (segment s c).AdvancesOrEnds ts us
  elseIfs : (elseIf nested s c).AdvancesOrEnds ts us
  whenCases : (caseStep nested s c).AdvancesOrEnds ts us
  initDecls : (initStep nested s c).AdvancesOrEnds ts us
  useSubs : (useStep s c).AdvancesOrEnds ts us

open Script.Parser

theorem constructs_level (hts : Token.Closed ts) (hc : c.Into ts us) (hw : c.weight ≤ n) :
    Constructs ts us (Nested.level n) s c :=
  have hn := Nested.level_advances n
  { expr := fun min => (leads_expr hn min).taken hts hc hw
    operand := (leads_operand hn).taken hts hc hw
    value := fun min => (leads_value hn min).taken hts hc hw
    arguments := (leads_arguments hn).taken hts hc hw
    block := (leads_block hn).taken hts hc hw
    ident := leads_ident.taken hts hc hw
    name := leads_name.taken hts hc hw
    typeRef := leads_typeRef.taken hts hc hw
    statement := (leads_statement hn).taken hts hc hw
    exprStatement := (leads_exprStatement hn).taken hts hc hw
    ifStmt := (leads_ifStmt hn).taken hts hc hw
    forStmt := (leads_forStmt hn).taken hts hc hw
    whenStmt := (leads_whenStmt hn).taken hts hc hw
    whenCase := (leads_whenCase hn).taken hts hc hw
    caseBody := (leads_caseBody hn).taken hts hc hw
    varDecl := (leads_varDecl hn).taken hts hc hw
    useDecl := leads_useDecl.taken hts hc hw
    importDecl := (leads_importDecl hn).taken hts hc hw
    fnDecl := (leads_fnDecl hn).taken hts hc hw
    param := leads_param.taken hts hc hw
    nodeDecl := (leads_nodeDecl hn).taken hts hc hw
    property := leads_property.taken hts hc hw
    typeDecl := leads_typeDecl.taken hts hc hw
    fieldDecl := leads_fieldDecl.taken hts hc hw
    enumDecl := (leads_enumDecl hn).taken hts hc hw
    enumMember := (leads_enumMember hn).taken hts hc hw }

theorem loops_level (hts : Token.Closed ts) (hc : c.Into ts us) (hw : c.weight < n) :
    Loops ts us (Nested.level n) s c :=
  have hn := Nested.level_advances n
  { statements := fun separators close =>
      (iterates_listStep separators close hn.statement).taken hts hc hw
    exprs := fun separators close =>
      (iterates_listStep separators close (hn.expr .group)).taken hts hc hw
    values := fun separators close =>
      (iterates_listStep separators close (hn.value .group)).taken hts hc hw
    params := fun separators close =>
      (iterates_listStep separators close leads_param.advances).taken hts hc hw
    properties := fun separators close =>
      (iterates_listStep separators close leads_property.advances).taken hts hc hw
    nodeEntries := fun separators close =>
      (iterates_listStep separators close (advances_nodeEntry hn)).taken hts hc hw
    fieldDecls := fun separators close =>
      (iterates_listStep separators close leads_fieldDecl.advances).taken hts hc hw
    enumMembers := fun separators close =>
      (iterates_listStep separators close (leads_enumMember hn).advances).taken hts hc hw
    operators := fun min left => (iterates_climb hn min left).taken hts hc hw
    segments := iterates_segment.taken hts hc hw
    elseIfs := (iterates_elseIf hn).taken hts hc hw
    whenCases := (iterates_caseStep hn).taken hts hc hw
    initDecls := (iterates_initStep hn).taken hts hc hw
    useSubs := iterates_useStep.taken hts hc hw }

end Steps

section Holes

variable {start stop : Nat} {t : Token} {h : RawHole} {d : Decoded} {form : StringForm}

theorem StringForm.opener_size (form : StringForm) : 0 < byteLength form.opener := by
  cases form <;> decide

theorem StringForm.closer_length (form : StringForm) : 0 < form.closer.length := by
  cases form <;> decide

/-- A body that is not empty leaves the closer over. -/
theorem StringForm.body_closed {cs : List Char} (h : form.opener <+: cs) (hb : form.body cs ≠ []) :
    ∃ post, post ≠ [] ∧ cs = form.opener ++ (form.body cs ++ post) := by
  obtain ⟨post, hpost⟩ := StringForm.body_split h
  refine ⟨post, ?_, hpost⟩
  rintro rfl
  have hlength := congrArg List.length hpost
  have hbody : (form.body cs).length = cs.length - form.closer.length - form.opener.length := by
    rw [StringForm.body, List.length_drop, List.length_take]
    omega
  have hpos := List.length_pos_iff.2 hb
  have := form.closer_length
  simp only [List.length_append, List.append_nil] at hlength
  omega

/-- A hole lies strictly inside its literal. -/
theorem decode_inside {literal : String} {pos : Nat}
    (ho : StringForm.opening? literal.toList = some form) (hd : decode literal pos = .ok d)
    (hh : .hole h ∈ d.pieces) :
    pos < h.inner.start ∧ h.inner.stop < pos + literal.utf8ByteSize := by
  unfold decode at hd
  rw [ho, Option.getD_some] at hd
  dsimp only at hd
  split at hd
  · rename_i as ha
    obtain rfl := Except.ok.inj hd
    have hmem := Piece.hole_of_join hh
    obtain ⟨pre, rest, hbody, hstart⟩ := Piece.atoms_within ha hmem
    have hne : form.body literal.toList ≠ [] := by
      intro hnil
      rw [hnil, Piece.atoms] at ha
      obtain rfl := Except.ok.inj ha
      cases hmem
    obtain ⟨post, hpost, hliteral⟩ := StringForm.body_closed (StringForm.opening?_isPrefix ho) hne
    have hbytes := congrArg byteLength hliteral
    rw [hbody] at hbytes
    simp only [byteLength_append, byteLength_toList] at hbytes
    have hopener := form.opener_size
    have hlast : 0 < byteLength post := by
      have := length_le_byteLength post
      have := List.length_pos_iff.2 hpost
      omega
    simp only [RawHole.inner]
    omega
  · cases hd

/-- A hole of a token lies strictly inside it and is a range of the source on its own. -/
structure RawHole.Inside (source : String) (t : Token) (h : RawHole) : Prop where
  start : t.start < h.inner.start
  le : h.inner.start ≤ h.inner.stop
  stop : h.inner.stop < t.stop
  boundary : Boundary source h.inner.start ∧ Boundary source h.inner.stop
  tokens : (Lexed.ofString h.start h.text).result = tokenizeRange source h.inner.start h.inner.stop

theorem RawHole.inside {pre post : List Char}
    (hsource : source.toList = pre ++ (t.text.toList ++ post)) (hstart : t.start = byteLength pre)
    (ho : StringForm.opening? t.text.toList = some form) (hd : decode t.text t.start = .ok d)
    (hh : .hole h ∈ d.pieces) : h.Inside source t := by
  obtain ⟨hafter, hbefore⟩ := decode_inside ho hd hh
  obtain ⟨a, b, htext, hhole⟩ := decode_within ho hd hh
  have hsplit : source.toList = (pre ++ a) ++ (h.text.toList ++ (b ++ post)) := by
    rw [hsource, htext]
    simp
  have hfirst : h.inner.start = byteLength (pre ++ a) := by
    rw [byteLength_append, ← hstart]
    exact hhole
  have hlast : h.inner.stop = byteLength (pre ++ a) + byteLength h.text.toList := by
    rw [byteLength_toList, ← hfirst]
    rfl
  refine ⟨hafter, Nat.le_add_right _ _, hbefore, ⟨⟨_, _, hsplit, hfirst⟩, ?_⟩, ?_⟩
  · exact ⟨(pre ++ a) ++ h.text.toList, b ++ post, by simp [hsplit],
      by rw [byteLength_append, hlast]⟩
  · rw [tokenizeRange, Lexed.ofRange, hlast, hfirst, hsplit, slice_append, ← hfirst]
    rfl

/-- The holes of the tokens of a range lie inside these tokens. -/
theorem tokenizeRange_holes (hstart : Boundary source start) (hstop : Boundary source stop)
    (hle : start ≤ stop) (hts : tokenizeRange source start stop = .ok ts) (ht : t ∈ ts)
    (hk : t.kind.isString = true) (hd : decode t.text t.start = .ok d) (hh : .hole h ∈ d.pieces) :
    h.Inside source t := by
  obtain ⟨tokens, last, rfl, hl⟩ := tokenizeRange_ok hts
  obtain ⟨pre, mid, post, hsource, rfl, rfl⟩ := hstart.split hstop hle
  rw [Span.text, hsource, slice_append] at hl
  obtain ⟨after, hscans, rfl⟩ := lexed_iff.1 hl
  rw [List.mem_append, List.mem_singleton] at ht
  rcases ht with ht | rfl
  · obtain ⟨⟨a, b, hmid, hpos⟩, hread⟩ := hscans.mem ht
    obtain ⟨form, ho, -⟩ := hread.string hk
    rw [String.toList_ofList] at hmid
    have hsplit : source.toList = (pre ++ a) ++ (t.text.toList ++ (b ++ post)) := by
      rw [hsource, hmid]
      simp
    exact RawHole.inside hsplit (by rw [hpos, byteLength_append]) ho hd hh
  · cases hk

end Holes

namespace Program

open Script.Parser

/-- What a reading of a program leaves behind: the tokens that it took, which pay for its calls. -/
theorem read_takes (hc : c.Sound) :
    ∃ vs k, c.Takes vs (read c).rest ∧ Takes c k ∧ k ≤ 2 * Token.weight vs + 1 ∧
      ∀ e c', read c = .error e c' → e.fault ≠ .outOfSteps := by
  obtain ⟨qs, k, hasks, hadds, hpays⟩ := read_paid hc
  have hread :
      Parser.programWithin (Nested.level (c.weight + 1)) ⟨.expectValue, true⟩ c = read c := rfl
  dsimp only at hpays
  rw [hread] at hpays
  obtain ⟨vs, htakes, hk⟩ := hpays.takes
  exact ⟨vs, k, htakes, ⟨qs, hasks, hadds⟩, hk, fun e c' he => hpays.fault he⟩

theorem sound_cursor (source : String) : (Lexed.ofString 0 source).cursor.Sound :=
  .start (Lexed.endToken_kind 0 source) (Lexed.scanFrom_size 0 0 false source.toList).2

theorem weight_cursor (source : String) :
    (Lexed.ofString 0 source).cursor.weight ≤ source.utf8ByteSize := by
  have hsize := (Lexed.scanFrom_size 0 0 false source.toList).1
  obtain ⟨pos, newline, hend⟩ := Lexed.endToken_ofString 0 source
  rw [List.drop_zero, byteLength_toList] at hsize
  rw [Cursor.weight, Lexed.cursor_rest, Token.weight_append, hend]
  simpa [Token.weight, Token.endAt, Lexed.ofString, Lexed.ofChars] using hsize

/-- The fault of a source is none of the reading's own bounds. -/
theorem parse_fault {e : ParseError} (h : parse source = .error e) : e.fault ≠ .outOfSteps := by
  obtain ⟨-, -, -, -, -, hread⟩ := read_takes (sound_cursor source)
  unfold parse ofLexed at h
  unfold Lexed.cursor Lexed.endToken at hread
  generalize Lexed.ofString 0 source = l at h hread
  obtain ⟨tokens, last⟩ := l
  cases last with
  | ok last =>
    dsimp only at h hread
    split at h
    · cases h
    · rename_i he
      obtain rfl := Except.error.inj h
      exact hread _ _ he
  | error x =>
    dsimp only at h hread
    split at h
    · obtain rfl := Except.error.inj h
      simp [LexError.toParseError]
    · rename_i he
      split at h
      · obtain rfl := Except.error.inj h
        exact hread _ _ he
      · obtain rfl := Except.error.inj h
        simp [LexError.toParseError]

/-- Reading makes progress on every token list of a source. A construct that is read successfully
leaves the cursor further on, every step of a loop does so or ends the loop, and holes are ranges
strictly inside their tokens. So every source is read to an end within a number of calls that its
length bounds, and no bound of the reading itself is ever met. -/
theorem parse_progress (source : String) :
    (∀ start stop ts, tokenizeRange source start stop = .ok ts → ∀ us (c : Cursor), c.Into ts us →
      ∀ s n, (c.weight ≤ n → Constructs ts us (Nested.level n) s c) ∧
        (c.weight < n → Loops ts us (Nested.level n) s c)) ∧
    (∀ start stop ts, Boundary source start → Boundary source stop → start ≤ stop →
      tokenizeRange source start stop = .ok ts → ∀ t ∈ ts, t.kind.isString = true →
        ∀ d h, decode t.text t.start = .ok d → .hole h ∈ d.pieces → h.Inside source t) ∧
    (∃ k ≤ 2 * source.utf8ByteSize + 1, Takes (Lexed.ofString 0 source).cursor k) ∧
    (∀ n, (Lexed.ofString 0 source).cursor.weight < n →
      programWithin (Nested.level n) ⟨.expectValue, true⟩ (Lexed.ofString 0 source).cursor =
        read (Lexed.ofString 0 source).cursor) ∧
    ∀ e, parse source = .error e → e.fault ≠ .outOfSteps := by
  have hsound := sound_cursor source
  obtain ⟨vs, k, htakes, hcalls, hk, -⟩ := read_takes hsound
  have hweight := htakes.weight_eq
  have hsize := weight_cursor source
  refine ⟨fun start stop ts hts us c hc s n => ?_, ?_, ⟨k, by omega, hcalls⟩,
    fun n hn => hcalls.deeper hn, fun e => parse_fault⟩
  · have hclosed := tokenizeRange_closed hts
    exact ⟨constructs_level hclosed hc, loops_level hclosed hc⟩
  · exact fun start stop ts hstart hstop hle hts t ht hk d h hd hh =>
      tokenizeRange_holes hstart hstop hle hts ht hk hd hh

/-- A source that is one literal with one hole. -/
theorem parse_progress_hole :
    ∃ t last, ∃ h : RawHole, tokenizeRange "f\"$\x7ba\x7d\"" 0 7 = .ok [t, last] ∧
      Constructs [t, last] [] (Nested.level 7) ⟨.expectValue, true⟩ (Cursor.start [t] last) ∧
      h.Inside "f\"$\x7ba\x7d\"" t ∧
      ∃ k ≤ 15, Takes (Lexed.ofString 0 "f\"$\x7ba\x7d\"").cursor k := by
  have hstart : Boundary "f\"$\x7ba\x7d\"" 0 := ⟨[], "f\"$\x7ba\x7d\"".toList, rfl, rfl⟩
  have hstop : Boundary "f\"$\x7ba\x7d\"" 7 := ⟨"f\"$\x7ba\x7d\"".toList, [], by decide, by decide⟩
  have hts : tokenizeRange "f\"$\x7ba\x7d\"" 0 7 =
      .ok [⟨.formattedString, "f\"$\x7ba\x7d\"", 0, false⟩, Token.endAt 7 false] := by rfl
  have hd : decode "f\"$\x7ba\x7d\"" 0 = .ok ⟨.formatted, [.hole ⟨.expr, "a", 2⟩]⟩ :=
    eq_ok_of_toOption (by decide +kernel)
  obtain ⟨hsteps, hholes, hcalls, -⟩ := parse_progress "f\"$\x7ba\x7d\""
  exact ⟨_, _, ⟨.expr, "a", 2⟩, hts,
    (hsteps 0 7 _ hts [] _ (.start [_] _) ⟨.expectValue, true⟩ 7).1 (by decide),
    hholes 0 7 _ hstart hstop (by decide) hts _ (by simp) rfl _ _ hd (by simp), hcalls⟩

end Program

end Script
