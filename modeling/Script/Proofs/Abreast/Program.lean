import Script.Proofs.Abreast.Statement
import Script.Proofs.Lexing.Tokens

/-!
Readings of whole programs side by side.
-/
namespace Script

open Chars Script.Parser Seam

variable {σ : Seam} {c d : Cursor}

/-- Programs are read alike from token lists that agree, up to the end of the first of them. -/
theorem Program.read_abreast (σ : Seam) {n m : Nat} (h : n ≤ m) :
    Abreast σ n (fun _ => n) (fun p q => σ.Like p.statements q.statements)
      (programWithin (Nested.level n)) (programWithin (Nested.level m)) := by
  have hstatement := (Nested.level_abreast σ.places h).statement rfl
  refine here_abreast.bind fun _ _ _ => ?_
  refine ((separated_abreast hstatement _ _).within _ _).bind fun as bs has => ?_
  exact here_abreast.bind fun _ _ _ => .pure has (Nat.le_refl _)

/-- A text that is tokenized has its tokens and then its end token. -/
theorem tokenize_ok {source : String} {ts : List Token} (h : tokenize source = .ok ts) :
    ∃ last, (Lexed.ofString 0 source).last = .ok last ∧
      ts = (Lexed.ofString 0 source).tokens ++ [last] := by
  rw [tokenize, Lexed.result] at h
  split at h
  · exact ⟨_, ‹_›, (Except.ok.inj h).symm⟩
  · cases h

theorem tokenize_error {source : String} {x : LexError} (h : tokenize source = .error x) :
    (Lexed.ofString 0 source).last = .error x := by
  rw [tokenize, Lexed.result] at h
  split at h
  · cases h
  · rw [← Except.error.inj h]
    assumption

namespace Lexed

/-- The token at which the reading of a lexed text ends, whether the text does or not. -/
def endToken (l : Lexed) : Token :=
  match l.last with
  | .ok last => last
  | .error e => Token.endAt e.span.start true

def cursor (l : Lexed) : Cursor := Cursor.start l.tokens l.endToken

theorem cursor_rest (l : Lexed) : l.cursor.rest = l.tokens ++ [l.endToken] := Cursor.start_rest _ _

theorem endToken_ofString (base : Nat) (text : String) :
    ∃ pos newline, (ofString base text).endToken = Token.endAt pos newline := by
  obtain ⟨pre, rest, after, -, -, hstops⟩ := Lexed.scans base text
  rw [endToken]
  generalize (ofString base text).last = last at hstops
  cases hstops <;> exact ⟨_, _, rfl⟩

theorem endToken_kind (base : Nat) (text : String) :
    (ofString base text).endToken.kind = .endOfText := by
  obtain ⟨pos, newline, h⟩ := endToken_ofString base text
  rw [h]
  rfl

/-- The tokens of a text end before the text does. -/
theorem stop_le_endToken {base : Nat} {text : String} {t : Token}
    (ht : t ∈ (ofString base text).tokens) : t.stop ≤ (ofString base text).endToken.start := by
  obtain ⟨pre, rest, after, -, hscans, hstops⟩ := Lexed.scans base text
  obtain ⟨⟨a, b, rfl, hstart⟩, -⟩ := hscans.mem ht
  rw [endToken, Token.stop, hstart, ← byteLength_toList]
  generalize (ofString base text).last = last at hstops
  cases hstops <;> simp only [Token.endAt, byteLength_append] <;> omega

end Lexed

namespace Places

/-- Tokens that are alike take the same number of bytes. -/
theorem Like.weight {P : Places} {ts us : List Token} (h : P.Like ts us) :
    Token.weight ts = Token.weight us := by
  induction ts generalizing us with
  | nil =>
    cases us with
    | nil => rfl
    | cons u us => cases h
  | cons t ts ih =>
    cases us with
    | nil => cases h
    | cons u us =>
      obtain ⟨htu, hrest⟩ := like_cons.1 h
      rw [Token.weight, Token.weight, htu.text, ih hrest]

theorem like_same_tokens (ts : List Token) : same.Like ts ts := rfl

theorem like_same_error {e e' : ParseError} (h : same.Like e e') : e = e' := by
  obtain ⟨hfault, hspan⟩ := like_error.1 h
  obtain ⟨hstart, hstop⟩ := like_span.1 hspan
  obtain ⟨fault, start, stop⟩ := e
  obtain ⟨fault', start', stop'⟩ := e'
  obtain rfl : fault = fault' := hfault
  obtain rfl : start = start' := hstart
  obtain rfl : stop = stop' := hstop
  rfl

end Places

namespace Program

variable {l : Lexed} {c : Cursor}

theorem ofLexed_of_ok {last : Token} (hl : l.last = .ok last) {p : Program}
    (h : read l.cursor = .ok p c) : ofLexed l = .ok p := by
  rw [Lexed.cursor, Lexed.endToken, hl] at h
  simp only [ofLexed, hl, h]

theorem ofLexed_of_error {e : ParseError} (h : read l.cursor = .error e c)
    (hl : ∀ x, l.last = .error x → e.span.start < x.span.start) : ofLexed l = .error e := by
  rw [Lexed.cursor, Lexed.endToken] at h
  cases hlast : l.last with
  | ok last =>
    rw [hlast] at h
    simp only [ofLexed, hlast, h]
  | error x =>
    rw [hlast] at h
    simp only [ofLexed, hlast, h, if_pos (hl x hlast)]

/-- Where a lexical error ends the tokens, it is the answer unless an error was found before it. -/
theorem ofLexed_of_lexical {x : LexError} (hl : l.last = .error x)
    (h : ∀ e c, read l.cursor = .error e c → x.span.start ≤ e.span.start) :
    ofLexed l = .error x.toParseError := by
  rw [Lexed.cursor, Lexed.endToken, hl] at h
  simp only [ofLexed, hl]
  split
  · rfl
  · rename_i e c he
    rw [if_neg (Nat.not_lt.2 (h e c he))]

theorem read_of_ofLexed_error {last : Token} (hl : l.last = .ok last) {e : ParseError}
    (h : ofLexed l = .error e) : ∃ c, read l.cursor = .error e c := by
  rw [Lexed.cursor, Lexed.endToken, hl]
  simp only [ofLexed, hl] at h
  split at h
  · cases h
  · rename_i x c hx
    exact ⟨c, Except.error.inj h ▸ hx⟩

theorem read_of_ofLexed_ok {p : Program} (h : ofLexed l = .ok p) : ∃ c, read l.cursor = .ok p c := by
  rw [Lexed.cursor, Lexed.endToken]
  cases hl : l.last with
  | ok last =>
    simp only [ofLexed, hl] at h
    split at h
    · rename_i q c hq
      exact ⟨c, Except.ok.inj h ▸ hq⟩
    · cases h
  | error x =>
    simp only [ofLexed, hl] at h
    split at h
    · cases h
    · split at h <;> cases h

/-- The tokens of a text that are the first ones of another text, which goes on with `us`. -/
def cut (source whole : String) (us : List Token) : Seam :=
  Lexed.seam .same 0 source (Lexed.ofString 0 source).endToken (Lexed.endToken_kind 0 source)
    (us ++ [(Lexed.ofString 0 whole).endToken])
    (by simp [Lexed.endToken_kind])

/-- The end of a text changes nothing about how the tokens before it are read, except where the
reading is lost there. -/
theorem read_cut {source whole : String} {us : List Token}
    (h : (Lexed.ofString 0 whole).tokens = (Lexed.ofString 0 source).tokens ++ us) :
    ∃ n, Outcome.Kept (cut source whole us) (fun _ => n)
      (fun p q => (cut source whole us).Like p.statements q.statements)
      (read (Lexed.ofString 0 source).cursor) (read (Lexed.ofString 0 whole).cursor) := by
  let σ := cut source whole us
  have hrest : (Lexed.ofString 0 whole).cursor.rest = σ.tokens ++ σ.more := by
    rw [Lexed.cursor_rest, h, List.append_assoc]
    rfl
  have hmore : σ.more ≠ [] := by simp [σ, cut, Lexed.seam]
  have hlast : Token.weight [σ.last] = 0 := by
    obtain ⟨pos, newline, hend⟩ := Lexed.endToken_ofString 0 source
    rw [show σ.last = Token.endAt pos newline from hend]
    rfl
  have hweight : σ.start.weight ≤ (Lexed.ofString 0 whole).cursor.weight := by
    rw [Cursor.weight, Cursor.weight, hrest, σ.start_rest, Token.weight_append,
      Token.weight_append, hlast]
    omega
  have habreast := read_abreast σ (Nat.add_le_add_right hweight 1)
  refine ⟨σ.start.weight + 1, ?_⟩
  by_cases ht : σ.tokens = []
  · have hend : σ.start.rest = [σ.last] := by rw [σ.start_rest, ht, List.nil_append]
    exact .gone (habreast.away ⟨hmore, ⟨[], .refl _⟩, .inl hend, Nat.lt_succ_self _⟩)
  · refine habreast.near (near_start (start_before _ _) hrest (Places.like_same_tokens _) (.cut hmore)
      (fun hnil => absurd hnil ht) ?_)
    rw [← σ.start_rest]
    exact Nat.lt_succ_self _

/-- Texts whose tokens are alike are read alike, or fail alike. -/
theorem read_like {P : Places} {base : Nat} {text : String} {us : List Token} {u v : Token}
    (hu : (Lexed.ofString base text).last = .ok u)
    (h : P.Like (Lexed.ofString base text).tokens us) (huv : P.Like u v) :
    (∃ p q c d, read (Lexed.ofString base text).cursor = .ok p c ∧
        read (Cursor.start us v) = .ok q d ∧ P.Like p.statements q.statements) ∨
      ∃ e f c d, read (Lexed.ofString base text).cursor = .error e c ∧
        read (Cursor.start us v) = .error f d ∧ P.Like e f := by
  let σ := Lexed.seam P base text u (Lexed.scanFrom_last hu) [] nofun
  have hus : σ.Like σ.tokens us := h
  have hcursor : (Lexed.ofString base text).cursor = σ.start := by
    rw [Lexed.cursor, Lexed.endToken, hu]
    rfl
  have hend : Token.weight [σ.last] = Token.weight [v] :=
    (Places.like_cons.2 ⟨huv, Places.like_nil⟩).weight
  have hweight : σ.start.weight = (Cursor.start us v).weight := by
    rw [Cursor.weight, Cursor.weight, Seam.start_rest, Cursor.start_rest, Token.weight_append,
      Token.weight_append, hus.weight, hend]
  have hnear : σ.Near (σ.start.weight + 1) σ.start (Cursor.start us v) := by
    refine near_start (start_before _ _) (Cursor.start_rest _ _) hus (.last rfl huv) (fun _ => rfl) ?_
    rw [← start_rest]
    exact Nat.lt_succ_self _
  have hkept := (read_abreast σ (Nat.add_le_add_right (Nat.le_of_eq hweight) 1)).near
    (s := ⟨.expectValue, true⟩) hnear
  rw [hcursor]
  obtain ⟨p, q, c, d, hp, hq, hpq, -⟩ | ⟨e, f, c, d, he, hf, hef⟩ := kept_cases rfl hkept
  · exact .inl ⟨p, q, c, d, hp, hq, hpq⟩
  · exact .inr ⟨e, f, c, d, he, hf, hef⟩

end Program

end Script
