import Script.Proofs.Lexing.Chunks
import Script.Proofs.Lexing.Numerals
import Script.Tree.Chunks

/-!
The words of trees: signs and brackets, identifiers and keywords are read as what they are.
-/
namespace Script

open Chars Lexeme

/-- A text that is one identifier. -/
def Ident.isProper (i : Ident) : Bool :=
  match i.text.toList with
  | c :: cs => isIdentStart c && cs.all isIdentPart
  | [] => false

theorem Ident.isProper_iff {i : Ident} : i.isProper = true ↔
    ∃ c cs, i.text.toList = c :: cs ∧ isIdentStart c = true ∧ ∀ d ∈ cs, isIdentPart d = true := by
  unfold isProper
  split
  · rename_i c cs htext
    rw [htext, Bool.and_eq_true, List.all_eq_true]
    constructor
    · rintro ⟨hc, hcs⟩
      exact ⟨c, cs, rfl, hc, hcs⟩
    · rintro ⟨_, _, hcons, hc, hcs⟩
      obtain ⟨rfl, rfl⟩ := List.cons.inj hcons
      exact ⟨hc, hcs⟩
  · rename_i htext
    rw [htext]
    simp

theorem Ident.parts_of_isProper {i : Ident} (h : i.isProper = true) :
    ∀ c ∈ i.text.toList, isIdentPart c = true := by
  obtain ⟨c, cs, htext, hc, hcs⟩ := isProper_iff.1 h
  rw [htext]
  refine List.forall_mem_cons.2 ⟨?_, hcs⟩
  rw [isIdentPart, hc, Bool.true_or]

namespace Word

theorem readable_ident {text : String} {c : Char} {cs : List Char} (htext : text.toList = c :: cs)
    (hc : isIdentStart c = true) (hcs : ∀ d ∈ cs, isIdentPart d = true) :
    Word.Readable ⟨.ident, text⟩ := by
  refine ⟨c, cs, htext, ?_⟩
  have hparts : ∀ d ∈ cs.head?, d ≠ '"' ∧ d ≠ '`' :=
    fun d hd => Readable.identPart_ne_quote (hcs d (List.mem_of_mem_head? hd))
  have hscan := scan_of_reads (.ident (m := holeLength) (Readable.opening?_word hc hparts) hc)
  rwa [List.takeWhile_eq_self_iff.2 hcs] at hscan

theorem readable_proper {i : Ident} (h : i.isProper = true) : Word.Readable ⟨.ident, i.text⟩ := by
  obtain ⟨c, cs, htext, hc, hcs⟩ := Ident.isProper_iff.1 h
  exact readable_ident htext hc hcs

theorem Readable.isProper {text : String} {span : Span}
    (h : Word.Readable ⟨.ident, text⟩) : (⟨text, span⟩ : Ident).isProper = true := by
  obtain ⟨c, cs, htext, -⟩ := id h
  obtain ⟨hc, hcs⟩ := h.first_ident htext rfl
  exact Ident.isProper_iff.2 ⟨c, cs, htext, hc, hcs⟩

theorem readable_keyword (k : Keyword) : (Word.keyword k).Readable := by
  have hproper : ∀ k : Keyword, (Ident.isProper ⟨k.text, default⟩) = true := by
    intro k
    cases k <;> decide
  exact readable_proper (hproper k)

theorem readable_symbol {k : TokenKind} {s : String} (h : k.symbolText? = some s) :
    (Word.symbol k).Readable := by
  rw [Word.symbol, h, Option.getD_some]
  cases k <;> cases h <;> exact ⟨_, _, rfl, rfl⟩

end Word

end Script
