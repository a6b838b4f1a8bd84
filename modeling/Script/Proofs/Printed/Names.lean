import Script.Proofs.Moved.Expression
import Script.Proofs.Printed.Words

/-!
Parts of a tree that are written back. Placed anywhere, the chunks of such a part are the tokens of
the same part, apart from its spans, and all its words can be read.
-/
namespace Script

open Chars Chunk

/-- What is left of a name when it does not matter where it stands. -/
def Name.erase (n : Name) : Name := n.mapSpans fun _ => default

/-- The chunks of a part are written as this part, up to spans, wherever they are placed. -/
structure Printed {α : Type} (erase : α → α) (chunks : List Char → Nat → α → List Chunk)
    (written : α → List Token → Prop) (a : α) : Prop where
  written : ∀ gap indent pos, ∃ b, erase b = erase a ∧ written b (place pos (chunks gap indent a))
  readable : ∀ gap indent, ∀ ch ∈ chunks gap indent a, ch.word.Readable

theorem Printed.mono {α : Type} {erase : α → α} {chunks : List Char → Nat → α → List Chunk}
    {written written' : α → List Token → Prop} {a : α} (h : Printed erase chunks written a)
    (hw : ∀ {b ts}, written b ts → written' b ts) : Printed erase chunks written' a where
  written gap indent pos := by
    obtain ⟨b, hb, hwritten⟩ := h.written gap indent pos
    exact ⟨b, hb, hw hwritten⟩
  readable := h.readable

namespace Chunk

/-- The token of a chunk at a byte position. -/
def token (pos : Nat) (ch : Chunk) : Token :=
  ⟨ch.word.kind, ch.word.text, pos + byteLength ch.gap, ch.gap.contains '\n'⟩

theorem place_cons (pos : Nat) (ch : Chunk) (chs : List Chunk) :
    place pos (ch :: chs) =
      ch.token pos :: place (pos + byteLength ch.gap + ch.word.text.utf8ByteSize) chs := rfl

theorem place_append (pos : Nat) (a b : List Chunk) :
    place pos (a ++ b) = place pos a ++ place (pos + byteLength (spell a)) b := by
  induction a generalizing pos with
  | nil => rfl
  | cons ch a ih =>
    rw [List.cons_append, place_cons, place_cons, ih, List.cons_append]
    simp only [spell, byteLength_append, byteLength_toList, Nat.add_assoc]

@[simp] theorem token_symbol_kind (pos : Nat) (gap : List Char) (k : TokenKind) :
    ((symbol gap k).token pos).kind = k := rfl

@[simp] theorem token_keyword (pos : Nat) (gap : List Char) (k : Keyword) :
    ((keyword gap k).token pos).keyword? = some k :=
  Keyword.ofText?_text k

/-- A sign with no line break before it goes on with what stands before. -/
theorem continuesWith_symbol {pos : Nat} {gap : List Char} {k : TokenKind} (hgap : '\n' ∉ gap) :
    Parser.continuesWith k ((symbol gap k).token pos) = true := by
  simp [Parser.continuesWith, token, symbol, Word.symbol, hgap]

end Chunk

section Names

variable {gap : List Char} {pos : Nat}

theorem Ident.written_token (i : Ident) :
    (Ident.mk i.text ((i.chunk gap).token pos).span).Written ((i.chunk gap).token pos) :=
  ⟨rfl, rfl⟩

theorem Ident.more_printed (is : List Ident) (pos : Nat) :
    ∃ js : List Ident, js.map (Ident.mapSpans fun _ => default) =
      is.map (Ident.mapSpans fun _ => default) ∧
      Ident.MoreWritten js (place pos (is.flatMap fun j => [symbol [] .dot, j.chunk []])) := by
  induction is generalizing pos with
  | nil => exact ⟨[], rfl, .nil⟩
  | cons i is ih =>
    simp only [List.flatMap_cons, List.cons_append, List.nil_append, place_cons]
    obtain ⟨js, hjs, hw⟩ := ih _
    exact ⟨_ :: js, by simp [hjs, Ident.mapSpans],
      .cons (continuesWith_symbol (by simp)) rfl i.written_token hw⟩

theorem Ident.more_readable {is : List Ident} (h : ∀ i ∈ is, Word.Readable ⟨.ident, i.text⟩) :
    ∀ ch ∈ is.flatMap fun j => [symbol [] .dot, j.chunk []], ch.word.Readable := by
  intro ch hch
  obtain ⟨i, hi, hch⟩ := List.mem_flatMap.1 hch
  simp only [List.mem_cons, List.not_mem_nil, or_false] at hch
  rcases hch with rfl | rfl
  · exact Word.readable_symbol rfl
  · exact h i hi

/-- A name is written back if its segments are identifiers. -/
theorem Name.printed {n : Name} (hn : n.segments ≠ [])
    (h : ∀ i ∈ n.segments, Word.Readable ⟨.ident, i.text⟩) :
    Printed Name.erase (fun gap _ n => n.chunks gap) Name.Written n := by
  obtain ⟨relative, segments, span⟩ := n
  cases segments with
  | nil => exact absurd rfl hn
  | cons i is =>
    rw [List.forall_mem_cons] at h
    cases relative with
    | false =>
      refine ⟨fun gap _ pos => ?_, fun gap _ => ?_⟩
      · obtain ⟨js, hjs, hw⟩ := Ident.more_printed is
          (pos + byteLength gap + (i.chunk gap).word.text.utf8ByteSize)
        exact ⟨⟨false, _ :: js, _⟩, by simp [Name.erase, Name.mapSpans, hjs, Ident.mapSpans],
          .absolute i.written_token hw⟩
      · exact List.forall_mem_cons.2 ⟨h.1, Ident.more_readable h.2⟩
    | true =>
      refine ⟨fun gap _ pos => ?_, fun gap _ => ?_⟩
      · simp only [Name.chunks, if_true, Ident.chunksPath, place_cons]
        obtain ⟨js, hjs, hw⟩ := Ident.more_printed is _
        exact ⟨⟨true, _ :: js, _⟩, by simp [Name.erase, Name.mapSpans, hjs, Ident.mapSpans],
          .relative rfl i.written_token hw⟩
      · exact List.forall_mem_cons.2 ⟨Word.readable_symbol rfl,
          List.forall_mem_cons.2 ⟨h.1, Ident.more_readable h.2⟩⟩

end Names

end Script
