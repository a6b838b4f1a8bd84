import Script.Bytes.Reader
import Script.Proofs.Boundaries.Statement
import Script.Proofs.Bytes.Decoding
import Script.Proofs.Shifted

/-!
Work on byte positions that is never stopped. Every token that a parser can come to stands in its
source as a slice of it, and a string token has the form of one; so its text is there, its literal
is taken apart by bytes, and its holes are ranges that are lexed anew. What fails spans a slice.
-/
namespace Script

open Chars Program

variable {source : String} {pos : Nat} {cs : List Char} {t : Token}

/-- A span between boundaries of a source, with the slice that it covers. -/
structure Span.Sliced (source : String) (s : Span) : Prop where
  on : s.On (Boundary source)
  slice : Bytes.slice s.start s.stop source.toList = .ok (s.text source).toList

theorem Span.On.sliced {s : Span} (h : s.On (Boundary source)) : s.Sliced source := by
  refine ⟨h, ?_⟩
  obtain ⟨pre, mid, post, hsource, hstart, hstop⟩ := h.start.split h.stop h.le
  rw [Span.text, String.toList_ofList, hstart, hstop, hsource, Chars.slice_append]
  exact Bytes.slice_append rfl rfl

/-- A text that stands at a byte position of a source. -/
def Chars.StandsIn (source : String) (pos : Nat) (cs : List Char) : Prop :=
  ∃ pre post, source.toList = pre ++ (cs ++ post) ∧ pos = byteLength pre

namespace Chars.StandsIn

theorem whole (source : String) : StandsIn source 0 source.toList := ⟨[], [], by simp, rfl⟩

theorem middle {a b c : List Char} (h : StandsIn source pos (a ++ (b ++ c))) :
    StandsIn source (pos + byteLength a) b := by
  obtain ⟨pre, post, hsource, rfl⟩ := h
  exact ⟨pre ++ a, c ++ post, by simp [hsource], (byteLength_append pre a).symm⟩

theorem on (h : StandsIn source pos cs) : Chars.On (Boundary source) pos cs := by
  rintro a b rfl
  obtain ⟨pre, post, hsource, rfl⟩ := h
  exact ⟨pre ++ a, b ++ post, by simp [hsource], (byteLength_append pre a).symm⟩

theorem slice (h : StandsIn source pos cs) :
    Bytes.slice pos (pos + byteLength cs) source.toList = .ok cs := by
  obtain ⟨pre, post, hsource, rfl⟩ := h
  rw [hsource]
  exact Bytes.slice_append rfl rfl

/-- A text is lexed where it stands, by bytes and by characters. -/
theorem lexed (h : StandsIn source pos cs) :
    Bytes.lexRange source.toList pos (pos + byteLength cs) = .ok (Lexed.ofChars pos cs) ∧
      Lexed.ofRange source pos (pos + byteLength cs) = Lexed.ofChars pos cs := by
  obtain ⟨pre, post, hsource, rfl⟩ := h
  rw [Lexed.ofRange, hsource, Chars.slice_append]
  exact ⟨Bytes.lexRange_ok rfl rfl rfl, rfl⟩

end Chars.StandsIn

/-- A token with its place in a source. A string is an opener, a body and a closer. -/
structure Token.Placed (source : String) (t : Token) : Prop where
  stands : StandsIn source t.start t.text.toList
  literal : t.kind.isString = true → ∃ form body,
    StringForm.opening? t.text.toList = some form ∧
      t.text.toList = form.opener ++ (body ++ form.closer)

/-- The tokens of a text that stands in a source, and the token at its end or its error. -/
theorem Lexed.placed {text : String} (h : StandsIn source pos text.toList) :
    ∀ t ∈ (Lexed.ofString pos text).cursor.rest, t.Placed source := by
  obtain ⟨pre, rest, after, htext, hscans, hstops⟩ := Lexed.scans pos text
  rw [htext] at h
  intro t ht
  rw [Lexed.cursor_rest, List.mem_append, List.mem_singleton] at ht
  rcases ht with ht | rfl
  · obtain ⟨⟨a, b, rfl, hstart⟩, hread⟩ := hscans.mem ht
    refine ⟨?_, hread.literal⟩
    rw [hstart]
    rw [List.append_assoc, List.append_assoc] at h
    exact h.middle
  · have hend : ∃ newline, (Lexed.ofString pos text).endToken =
        Token.endAt (pos + byteLength pre) newline := by
      rw [Lexed.endToken]
      generalize (Lexed.ofString pos text).last = last at hstops
      cases hstops <;> exact ⟨_, rfl⟩
    obtain ⟨newline, hend⟩ := hend
    rw [hend]
    refine ⟨?_, fun hs => absurd hs Bool.false_ne_true⟩
    exact StandsIn.middle (b := []) h

/-- The tokens that a parser of a source can come to: those of the source up to its end or its first
error, and those of the holes of the strings among them. -/
inductive Token.Met (source : String) : Token → Prop
  | source {t : Token} (h : t ∈ (Lexed.ofString 0 source).cursor.rest) : Met source t
  | hole {t u : Token} {d : Decoded} {h : RawHole} (ht : Met source t)
      (hk : t.kind.isString = true) (hd : decode t.text t.start = .ok d) (hh : .hole h ∈ d.pieces)
      (hu : u ∈ (Lexed.ofRange source h.inner.start h.inner.stop).cursor.rest) : Met source u

/-- A hole of a string stands in the source where its token does. -/
theorem Token.Placed.hole {d : Decoded} {h : RawHole} (ht : t.Placed source)
    (hk : t.kind.isString = true) (hd : decode t.text t.start = .ok d) (hh : .hole h ∈ d.pieces) :
    StandsIn source h.start h.text.toList := by
  obtain ⟨form, -, ho, -⟩ := ht.literal hk
  obtain ⟨a, b, htext, hstart⟩ := decode_within ho hd hh
  have hstands := ht.stands
  rw [htext] at hstands
  rw [hstart]
  exact hstands.middle

theorem RawHole.inner_stop (h : RawHole) : h.inner.stop = h.start + byteLength h.text.toList := by
  rw [byteLength_toList]
  rfl

theorem Token.Met.placed (h : t.Met source) : t.Placed source := by
  induction h with
  | source ht => exact Lexed.placed (.whole source) _ ht
  | @hole t u d h ht hk hd hh hu ih =>
    have hstands := ih.hole hk hd hh
    have hinner : Lexed.ofRange source h.inner.start h.inner.stop =
        Lexed.ofString h.start h.text := by
      rw [h.inner_stop]
      exact hstands.lexed.2
    rw [hinner] at hu
    exact Lexed.placed hstands _ hu

namespace Bytes

variable {h : RawHole}

theorem hole_ok (nested : Nested) (hstands : StandsIn source h.start h.text.toList) :
    hole nested source.toList (.of h) = .ok (Parser.hole nested h) := by
  have hinner : ∀ {α : Type} (p : Parser α),
      inHole source.toList (.of h) p = .ok (Parser.inHole h p) := by
    intro α p
    have hlexed : lexRange source.toList (HoleRange.of h).inner.start (HoleRange.of h).inner.stop =
        .ok (Lexed.ofString h.start h.text) := by
      show lexRange source.toList h.inner.start h.inner.stop = _
      rw [h.inner_stop]
      exact hstands.lexed.1
    rw [inHole, hlexed]
    rfl
  have hkind : (HoleRange.of h).kind = h.kind := rfl
  rw [hole, Parser.hole, hkind]
  cases h.kind with
  | name =>
    dsimp only
    rw [hinner]
    rfl
  | expr =>
    dsimp only
    rw [hinner]
    rfl

theorem stringParts_ok (nested : Nested) {pieces : List Piece}
    (hstands : ∀ h, .hole h ∈ pieces → StandsIn source h.start h.text.toList) :
    stringParts nested source.toList (pieces.map Part.of) =
      .ok (pieces.mapM (Parser.part nested)) := by
  induction pieces with
  | nil => rfl
  | cons piece pieces ih =>
    have hmore := ih fun h hh => hstands h (List.mem_cons_of_mem _ hh)
    rw [List.map_cons, List.mapM_cons]
    cases piece with
    | text s =>
      rw [Part.of, stringParts, hmore]
      rfl
    | hole h =>
      rw [Part.of, stringParts, hole_ok nested (hstands h List.mem_cons_self), hmore, Parser.part]
      cases Parser.hole nested h <;> rfl

end Bytes

/-- What a parser does with a token is not stopped. Its text is a slice of the source, and the
reading of a string by bytes gives the literal that the grammar gives, whatever parses what is nested
in it; where the literal cannot be taken apart, the error spans a slice. -/
structure Token.Safe (source : String) (t : Token) : Prop where
  text : Bytes.textOf source.toList t = .ok t.text.toList
  decoded : t.kind.isString = true →
    Bytes.decode t.text.toList t.start = .ok (Bytes.DecodedRanges.of <$> decode t.text t.start)
  fault : t.kind.isString = true → ∀ e, decode t.text t.start = .error e → e.span.Sliced source
  literal : t.kind.isString = true → ∀ nested,
    Bytes.literalOf nested source.toList t = .ok (Parser.literalOf nested t)

theorem Token.Placed.safe (h : t.Placed source) : t.Safe source := by
  have htext : Bytes.textOf source.toList t = .ok t.text.toList := by
    rw [Bytes.textOf, Token.stop, ← byteLength_toList]
    exact h.stands.slice
  have hdecoded : t.kind.isString = true →
      Bytes.decode t.text.toList t.start =
        .ok (Bytes.DecodedRanges.of <$> decode t.text t.start) := by
    intro hk
    obtain ⟨form, body, ho, hliteral⟩ := h.literal hk
    rw [hliteral] at ho
    have hok := Bytes.decode_ok t.start ho
    rwa [← hliteral, String.ofList_toList] at hok
  refine ⟨htext, hdecoded, fun hk e he => ?_, fun hk nested => ?_⟩
  · obtain ⟨form, -, ho, -⟩ := h.literal hk
    exact (decode_error ho he h.stands.on).sliced
  · rw [Bytes.literalOf, htext]
    dsimp only [bind, Except.bind]
    rw [hdecoded hk, Parser.literalOf]
    cases hd : decode t.text t.start with
    | error e => rfl
    | ok d =>
      have hparts := Bytes.stringParts_ok nested fun x hx => h.hole hk hd hx
      dsimp only [Functor.map, Except.map, Bytes.DecodedRanges.of]
      rw [hparts]
      cases d.pieces.mapM (Parser.part nested) <;> rfl

/-- No source stops the work on it. Its bytes are lexed as its characters are; every token that a
parser comes to is safe, and every span that it makes begins no later than it ends; and what is
reported of a source that is not tokenized or parsed spans a slice of it. -/
theorem Program.no_breach (source : String) :
    Bytes.lexRange source.toList 0 source.utf8ByteSize = .ok (Lexed.ofString 0 source) ∧
    (∀ t : Token, t.Met source → t.Safe source) ∧
    (∀ (c : Cursor) (start : Nat), Bytes.spanFrom c start = .ok (c.spanFrom start)) ∧
    (∀ first last : Token,
      Bytes.programSpan first last = .ok ⟨0, max last.stop first.start⟩) ∧
    (∀ e, tokenize source = .error e → e.span.Sliced source) ∧
    ∀ e, parse source = .error e → e.span.Sliced source := by
  have hwhole := StandsIn.whole source
  refine ⟨?_, fun t ht => ht.placed.safe, fun c start => ?_, fun first last => ?_, fun e he => ?_,
    fun e he => (parse_error_span he).sliced⟩
  · have hlexed := hwhole.lexed.1
    rwa [Nat.zero_add, byteLength_toList] at hlexed
  · exact Bytes.span_ok (Nat.le_max_right _ _)
  · exact Bytes.span_ok (Nat.zero_le _)
  · exact ((Lexed.on hwhole.on).2.2 e (tokenize_error he)).sliced

/-- A name in a hole behind a character of several bytes, and an error that such a character is part
of. -/
theorem Program.no_breach_hole :
    (Token.Met "f\"é$\x7bx\x7d\"" ⟨.ident, "x", 6, false⟩ ∧
      Token.Safe "f\"é$\x7bx\x7d\"" ⟨.ident, "x", 6, false⟩) ∧
    ∃ e, parse "x = \"\\é\"" = .error e ∧ e.span = ⟨5, 8⟩ ∧ e.span.Sliced "x = \"\\é\"" := by
  obtain ⟨-, hsafe, -⟩ := no_breach "f\"é$\x7bx\x7d\""
  obtain ⟨-, -, -, -, -, herror⟩ := no_breach "x = \"\\é\""
  have hd : decode "f\"é$\x7bx\x7d\"" 0 = .ok ⟨.formatted, [.text "é", .hole ⟨.expr, "x", 4⟩]⟩ :=
    eq_ok_of_toOption (by decide +kernel)
  have hmet : Token.Met "f\"é$\x7bx\x7d\"" ⟨.ident, "x", 6, false⟩ :=
    .hole (.source (t := ⟨.formattedString, "f\"é$\x7bx\x7d\"", 0, false⟩) (by decide +kernel)) rfl
      hd (h := ⟨.expr, "x", 4⟩) (by simp) (by decide +kernel)
  have he : parse "x = \"\\é\"" = .error ⟨.lexical (.invalidEscape 'é'), 5, 8⟩ :=
    eq_error_of_failure? (by decide +kernel)
  exact ⟨⟨hmet, hsafe _ hmet⟩, _, he, rfl, herror _ he⟩

end Script
