import Script.Proofs.Lexing.Tokens
import Script.Proofs.Sound.Names
import Script.Rules.Statement

/-!
The words of tokens and the words of what they are written as. Since separators are left out of
both, it is also followed where they stand: never where there is nothing to separate.
-/
namespace Script

open Chunk

namespace Chunk

@[simp] theorem words_nil : words [] = [] := rfl

@[simp] theorem words_append (a b : List Chunk) : words (a ++ b) = words a ++ words b := by
  simp [words]

theorem words_word (gap : List Char) {w : Word} (h : w.isSeparator = false) (chs : List Chunk) :
    words (⟨gap, w⟩ :: chs) = w :: words chs := by
  simp [words, h]

theorem words_separator (gap : List Char) {w : Word} (h : w.isSeparator = true)
    (chs : List Chunk) : words (⟨gap, w⟩ :: chs) = words chs := by
  simp [words, h]

@[simp] theorem words_keyword (gap : List Char) (k : Keyword) (chs : List Chunk) :
    words (keyword gap k :: chs) = Word.keyword k :: words chs :=
  words_word gap rfl chs

@[simp] theorem words_ident (gap : List Char) (i : Ident) (chs : List Chunk) :
    words (i.chunk gap :: chs) = ⟨.ident, i.text⟩ :: words chs :=
  words_word gap rfl chs

theorem words_symbol (gap : List Char) {k : TokenKind} (h : k ≠ .comma ∧ k ≠ .semicolon)
    (chs : List Chunk) : words (symbol gap k :: chs) = Word.symbol k :: words chs :=
  words_word gap (by simp [Word.symbol, Word.isSeparator, h.1, h.2]) chs

@[simp] theorem words_comma (gap : List Char) (chs : List Chunk) :
    words (symbol gap .comma :: chs) = words chs :=
  words_separator gap rfl chs

@[simp] theorem words_semicolon (gap : List Char) (chs : List Chunk) :
    words (symbol gap .semicolon :: chs) = words chs :=
  words_separator gap rfl chs

end Chunk

/-- Whether each separator has something before it that it separates, and the last token is such a
thing. `b` tells whether something stands before these tokens. -/
def Token.settled (b : Bool) : List Token → Bool
  | [] => b
  | t :: ts =>
    if t.word.isSeparator then b && settled false ts else settled (!t.kind.isOpener) ts

/-- Tokens have these words, and their separators separate. -/
structure Yields (b : Bool) (ts : List Token) (ws : List Word) : Prop where
  words : Token.words ts = ws
  settled : Token.settled b ts = true

/-- A kind of token that stands for itself, neither a separator nor an opening bracket. -/
def TokenKind.Plain (k : TokenKind) : Prop :=
  k ≠ .comma ∧ k ≠ .semicolon ∧ k.isOpener = false

instance (k : TokenKind) : Decidable k.Plain :=
  inferInstanceAs (Decidable (_ ∧ _))

namespace Token

variable {b : Bool} {t : Token} {ts us : List Token}

theorem words_append (ts us : List Token) : words (ts ++ us) = words ts ++ words us := by
  simp [words]

theorem settled_append (h : settled b ts = true) (h' : settled true us = true) :
    settled b (ts ++ us) = true := by
  induction ts generalizing b with
  | nil =>
    obtain rfl : b = true := h
    exact h'
  | cons t ts ih =>
    simp only [settled, List.cons_append] at h ⊢
    split at h
    · rename_i ht
      rw [if_pos ht]
      rw [Bool.and_eq_true] at h ⊢
      exact ⟨h.1, ih h.2⟩
    · rename_i ht
      rw [if_neg ht]
      exact ih h

theorem separated_of_settled (h : settled false ts = true) : Separated ts := by
  suffices key : ∀ us b t vs, settled b (us ++ t :: vs) = true → t.word.isSeparator = true →
      (us = [] ∧ b = true) ∨
        ∃ u ∈ us.getLast?, u.word.isSeparator = false ∧ u.kind.isOpener = false by
    rintro us t vs rfl ht
    rcases key us false t vs h ht with ⟨-, hb⟩ | hu
    · cases hb
    · exact hu
  intro us
  induction us with
  | nil =>
    intro b t vs h ht
    rw [List.nil_append, settled, if_pos ht, Bool.and_eq_true] at h
    exact .inl ⟨rfl, h.1⟩
  | cons u us ih =>
    intro b t vs h ht
    right
    rw [List.cons_append, settled] at h
    split at h
    · rw [Bool.and_eq_true] at h
      rcases ih false t vs h.2 ht with ⟨-, hb⟩ | ⟨w, hw, hplain⟩
      · cases hb
      · exact ⟨w, by rw [List.getLast?_cons, hw]; rfl, hplain⟩
    · rename_i hu
      rcases ih _ t vs h ht with ⟨rfl, hb⟩ | ⟨w, hw, hplain⟩
      · exact ⟨u, rfl, by simpa using hu, by simpa using hb⟩
      · exact ⟨w, by rw [List.getLast?_cons, hw]; rfl, hplain⟩

end Token

namespace Yields

variable {b : Bool} {t : Token} {ts us : List Token} {ws ws' : List Word} {source : String}

theorem nil : Yields true [] [] := ⟨rfl, rfl⟩

theorem append (h : Yields b ts ws) (h' : Yields true us ws') : Yields b (ts ++ us) (ws ++ ws') :=
  ⟨by rw [Token.words_append, h.words, h'.words], Token.settled_append h.settled h'.settled⟩

theorem word (ht : t.kind.Plain) (h : Yields true us ws) : Yields b (t :: us) (t.word :: ws) := by
  have hsep : t.word.isSeparator = false := by
    simp [Word.isSeparator, Token.word, ht.1, ht.2.1]
  constructor
  · rw [← h.words]
    simp [Token.words, hsep]
  · rw [Token.settled, hsep, ht.2.2]
    exact h.settled

theorem opener (ht : t.kind.isOpener = true) (h : Yields false us ws) :
    Yields b (t :: us) (t.word :: ws) := by
  have hsep : t.word.isSeparator = false := by
    cases hk : t.kind <;> simp [hk, TokenKind.isOpener] at ht <;>
      simp [Word.isSeparator, Token.word, hk]
  constructor
  · rw [← h.words]
    simp [Token.words, hsep]
  · rw [Token.settled, hsep, ht]
    exact h.settled

theorem separator (ht : t.kind = .comma ∨ t.kind = .semicolon) (h : Yields false us ws) :
    Yields true (t :: us) ws := by
  have hsep : t.word.isSeparator = true := by
    simpa [Word.isSeparator, Token.word] using ht
  constructor
  · rw [← h.words]
    simp [Token.words, hsep]
  · rw [Token.settled, if_pos hsep, h.settled]
    rfl

theorem ident {i : Ident} (hi : i.Written t) (h : Yields true us ws) :
    Yields b (t :: us) (⟨.ident, i.text⟩ :: ws) := by
  obtain ⟨hk, rfl⟩ := hi
  rw [← hk]
  exact word (by rw [hk]; decide) h

theorem keyword {k : Keyword} (ht : t.keyword? = some k) (h : Yields true us ws) :
    Yields b (t :: us) (.keyword k :: ws) := by
  rw [Token.keyword?] at ht
  split at ht
  · rename_i hk
    have htext : k.text = t.text := by simpa using List.find?_some ht
    rw [Word.keyword, htext, ← hk]
    exact word (by rw [hk]; decide) h
  · cases ht

theorem symbolWord (hf : t.Faithful source) {k : TokenKind} (hk : t.kind = k) {text : String}
    (htext : k.symbolText? = some text) : t.word = .symbol k := by
  subst hk
  have hread := hf.readable (fun hend => by rw [hend] at htext; cases htext)
  have hword : t.text = text := hread.symbol htext
  rw [Word.symbol, htext, Option.getD_some, Token.word, hword]

theorem symbol (hf : t.Faithful source) {k : TokenKind} (hk : t.kind = k) {text : String}
    (htext : k.symbolText? = some text) (hp : k.Plain) (h : Yields true us ws) :
    Yields b (t :: us) (.symbol k :: ws) := by
  rw [← symbolWord hf hk htext]
  exact word (hk ▸ hp) h

theorem bracket (hf : t.Faithful source) {k : TokenKind} (hk : t.kind = k) {text : String}
    (htext : k.symbolText? = some text) (hp : k.isOpener = true) (h : Yields false us ws) :
    Yields b (t :: us) (.symbol k :: ws) := by
  rw [← symbolWord hf hk htext]
  exact opener (hk ▸ hp) h

end Yields

section Names

variable {b : Bool} {t : Token} {ts us : List Token} {source : String} {gap : List Char}

theorem Ident.MoreWritten.yields {is : List Ident} (h : Ident.MoreWritten is ts)
    (hf : ∀ t ∈ ts, t.Faithful source) :
    Yields true ts (Chunk.words (is.flatMap fun j => [symbol [] .dot, j.chunk []])) := by
  induction h with
  | nil => exact .nil
  | cons hd ht hi _ ih =>
    simp only [List.forall_mem_cons] at hf
    simp only [List.flatMap_cons, List.cons_append, List.nil_append, words_ident,
      words_symbol [] (k := .dot) (by decide)]
    exact .symbol hf.1 (Parser.continuesWith_kind hd) rfl (by decide) (.ident hi (ih hf.2.2))

theorem Name.Written.yields {n : Name} (h : n.Written ts) (hf : ∀ t ∈ ts, t.Faithful source) :
    Yields b ts (Chunk.words (n.chunks gap)) := by
  cases h with
  | absolute hi his =>
    simp only [List.forall_mem_cons] at hf
    simp only [Name.chunks, Ident.chunksPath]
    rw [if_neg (by decide), words_ident]
    exact .ident hi (his.yields hf.2)
  | relative hd hi his =>
    simp only [List.forall_mem_cons] at hf
    simp only [Name.chunks, Ident.chunksPath, words_ident, if_true,
      words_symbol gap (k := .dot) (by decide)]
    exact .symbol hf.1 hd rfl (by decide) (.ident hi (his.yields hf.2.2))

theorem TypeRef.Written.yields {type : TypeRef} (h : type.Written ts)
    (hf : ∀ t ∈ ts, t.Faithful source) : Yields b ts (Chunk.words (type.chunks gap)) := by
  cases h with
  | @primitive t type hk ht =>
    have htext : type.word = t.text := by simpa using List.find?_some ht
    simp only [TypeRef.chunks]
    rw [words_word gap rfl, htext, ← hk]
    exact .word (by rw [hk]; decide) .nil
  | named hn _ => exact hn.yields hf

theorem TypeRef.AnnotationWritten.yields {o : Option TypeRef}
    (h : TypeRef.AnnotationWritten o ts) (hf : ∀ t ∈ ts, t.Faithful source) :
    Yields true ts (Chunk.words (TypeRef.chunksAnnotation o)) := by
  cases h with
  | none => exact .nil
  | some _ ht => exact ht.yields hf

end Names

/-- The words of items, which are the same whatever their gaps and margins are. -/
inductive YieldEach {α : Type} (chunks : List Char → Nat → α → List Chunk) :
    List α → List Word → Prop
  | nil : YieldEach chunks [] []
  | cons {a : α} {as : List α} {ws ws' : List Word}
      (ha : ∀ gap indent, Chunk.words (chunks gap indent a) = ws) (has : YieldEach chunks as ws') :
      YieldEach chunks (a :: as) (ws ++ ws')

section Lists

variable {α : Type} {chunks : List Char → Nat → α → List Chunk} {source : String}
  {separators : List TokenKind} {close : TokenKind} {written : α → List Token → Prop}
  {ends : List Token → α → Prop}

/-- The words of a list are those of its items and its closing token. -/
theorem ListWritten.yields {as : List α} {ts : List Token}
    (hseparators : ∀ k ∈ separators, k = .comma ∨ k = .semicolon) (hclose : close.Plain)
    (hitem : ∀ a ts, written a ts → (∀ t ∈ ts, t.Faithful source) →
      ∀ b gap indent, Yields b ts (Chunk.words (chunks gap indent a)))
    (h : ListWritten separators close written ends as ts) (hf : ∀ t ∈ ts, t.Faithful source) :
    ∃ ws t, t ∈ ts ∧ t.kind = close ∧ YieldEach chunks as ws ∧
      ∀ b, Yields b ts (ws ++ [t.word]) := by
  have hwords : ∀ {a ts}, written a ts → (∀ t ∈ ts, t.Faithful source) → ∀ gap indent,
      Chunk.words (chunks gap indent a) = Token.words ts :=
    fun ha hf gap indent => (hitem _ _ ha hf true gap indent).words.symm
  induction h with
  | @done t ht => exact ⟨[], t, by simp, ht, .nil, fun b => .word (ht ▸ hclose) .nil⟩
  | @separated a as t ts us ha _ ht _ ih =>
    rw [List.forall_mem_append, List.forall_mem_cons] at hf
    obtain ⟨ws, u, hu, hk, heach, hyields⟩ := ih hf.2.2
    refine ⟨_, u, by simp [hu], hk, .cons (hwords ha hf.1) heach, fun b => ?_⟩
    rw [List.append_assoc, ← hwords ha hf.1 [] 0]
    exact (hitem _ _ ha hf.1 b [] 0).append (.separator (hseparators _ ht) (hyields false))
  | @unseparated a as t ts us ha _ _ _ _ ih =>
    rw [List.forall_mem_append] at hf
    obtain ⟨ws, u, hu, hk, heach, hyields⟩ := ih hf.2
    refine ⟨_, u, List.mem_append_right _ hu, hk, .cons (hwords ha hf.1) heach, fun b => ?_⟩
    rw [List.append_assoc, ← hwords ha hf.1 [] 0]
    exact (hitem _ _ ha hf.1 b [] 0).append (hyields true)

theorem ListWritten.yields_closed {as : List α} {ts : List Token} {text : String}
    (hseparators : ∀ k ∈ separators, k = .comma ∨ k = .semicolon) (hclose : close.Plain)
    (htext : close.symbolText? = some text)
    (hitem : ∀ a ts, written a ts → (∀ t ∈ ts, t.Faithful source) →
      ∀ b gap indent, Yields b ts (Chunk.words (chunks gap indent a)))
    (h : ListWritten separators close written ends as ts) (hf : ∀ t ∈ ts, t.Faithful source) :
    ∃ ws, YieldEach chunks as ws ∧ ∀ b, Yields b ts (ws ++ [.symbol close]) := by
  obtain ⟨ws, t, ht, hk, heach, hyields⟩ := ListWritten.yields hseparators hclose hitem h hf
  exact ⟨ws, heach, by rwa [← Yields.symbolWord (hf t ht) hk htext]⟩

end Lists

end Script
