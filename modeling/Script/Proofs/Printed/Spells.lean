import Script.Proofs.Lexing.Chunks
import Script.Tree.Chunks
import Script.Tree.Layout

/-!
Chunks that spell a text. A node may stand after a gap, or right after a bracket or a sign; what
goes on with a node may stand after any word. Nodes are put together by what follows them and by the
words before them.
-/
namespace Script

open Chars

namespace Chunk

/-- Chunks that are set after a word of kind `before` and have this text. -/
structure Spells (before : Option TokenKind) (chs : List Chunk) (text : String) : Prop where
  text : String.ofList (spell chs) = text
  set : isSet before chs = true

/-- Chunks that may stand after any word. -/
def Tail (chs : List Chunk) (text : String) : Prop := ∀ before, Spells before chs text

/-- Chunks that may stand right after a bracket or a sign. -/
def Inner (chs : List Chunk) (text : String) : Prop :=
  ∀ before : Option TokenKind, (∀ k ∈ before, k.bears = true) → Spells before chs text

/-- Chunks that may stand after a gap, or right after a bracket or a sign. -/
def Node (chunks : List Char → List Chunk) (text : String) : Prop :=
  ∀ (gap : List Char) (before : Option TokenKind), gap.all isBlank = true →
    (gap ≠ [] ∨ ∀ k ∈ before, k.bears = true) →
    Spells before (chunks gap) (String.ofList gap ++ text)

variable {f : List Char → List Chunk} {a b : List Chunk} {x y : String} {w : Word}
  {before : Option TokenKind}

theorem spell_append (a b : List Chunk) : spell (a ++ b) = spell a ++ spell b := by
  induction a with
  | nil => rfl
  | cons ch a ih => simp [spell, ih]

theorem isSet_append (ha : isSet before a = true) (hb : ∀ before, isSet before b = true) :
    isSet before (a ++ b) = true := by
  induction a generalizing before with
  | nil => exact hb before
  | cons ch a ih =>
    simp only [isSet, List.cons_append, Bool.and_eq_true] at ha ⊢
    exact ⟨ha.1, ih ha.2⟩

theorem Spells.append (ha : Spells before a x) (hb : Tail b y) : Spells before (a ++ b) (x ++ y) where
  text := by rw [spell_append, String.ofList_append, ha.text, (hb before).text]
  set := isSet_append ha.set fun before => (hb before).set

theorem Spells.cast (h : Spells before a x) (hx : x = y) : Spells before a y := hx ▸ h

theorem Tail.nil : Tail [] "" := fun _ => ⟨rfl, rfl⟩

theorem Tail.append (ha : Tail a x) (hb : Tail b y) : Tail (a ++ b) (x ++ y) :=
  fun before => (ha before).append hb

theorem Tail.inner (ha : Tail a x) : Inner a x := fun before _ => ha before

theorem Tail.cast (h : Tail a x) (hx : x = y) : Tail a y := hx ▸ h

theorem Inner.append (ha : Inner a x) (hb : Tail b y) : Inner (a ++ b) (x ++ y) :=
  fun before hbefore => (ha before hbefore).append hb

theorem Node.append (hf : Node f x) (hb : Tail b y) : Node (fun gap => f gap ++ b) (x ++ y) := by
  intro gap before hgap hbefore
  rw [← String.append_assoc]
  exact (hf gap before hgap hbefore).append hb

theorem Node.cast (h : Node f x) (hx : x = y) : Node f y := hx ▸ h

theorem Node.inner (hf : Node f x) : Inner (f []) x := by
  intro before hbefore
  exact (hf [] before rfl (.inr hbefore)).cast (by simp)

/-- A node after a blank. -/
theorem Node.spaced (hf : Node f x) : Tail (f [' ']) (" " ++ x) :=
  fun before => hf [' '] before rfl (.inl (by simp))

theorem lineGap_isBlank (indent : Nat) : (lineGap indent).all isBlank = true := by
  have hblank : isBlank ' ' = true := rfl
  have hbreak : isBlank '\n' = true := rfl
  simp [lineGap, List.all_replicate, hblank, hbreak]

theorem ofList_lineGap (indent : Nat) :
    String.ofList (lineGap indent) = "\n" ++ Layout.margin indent := by
  rw [lineGap, Layout.margin, ← List.singleton_append, String.ofList_append]

/-- A node on a line of its own. -/
theorem Node.line (indent : Nat) (hf : Node f x) :
    Tail (f (lineGap indent)) ("\n" ++ Layout.margin indent ++ x) := by
  rw [← ofList_lineGap]
  exact fun before =>
    hf (lineGap indent) before (lineGap_isBlank indent) (.inl (by simp [lineGap]))

theorem Node.word (hw : w.kind.leads = true) : Node (fun gap => [⟨gap, w⟩]) w.text := by
  intro gap before hgap hbefore
  refine ⟨by simp [spell, String.ofList_append], ?_⟩
  simp only [isSet, hgap, Bool.true_and, Bool.and_true, Bool.or_eq_true]
  refine hbefore.imp (fun h => by simpa using h) fun h => ?_
  cases before with
  | none => rfl
  | some k => simp [TokenKind.touches, h k rfl, hw]

theorem Node.keyword (k : Keyword) : Node (fun gap => [Chunk.keyword gap k]) k.text :=
  Node.word (w := .keyword k) rfl

theorem spell_symbol (gap : List Char) (k : TokenKind) (b : List Chunk) :
    String.ofList (spell (symbol gap k :: b)) =
      String.ofList gap ++ ((Word.symbol k).text ++ String.ofList (spell b)) := by
  rw [spell, symbol, String.ofList_append, String.ofList_append, String.ofList_toList]

/-- A bracket or a sign, and right after it what may stand there. -/
theorem Node.opener {k : TokenKind} (hl : k.leads = true) (hk : k.bears = true) (hb : Inner b y) :
    Node (fun gap => symbol gap k :: b) ((Word.symbol k).text ++ y) := by
  intro gap before hgap hbefore
  have hinner := hb (some k) (by simpa using hk)
  refine ⟨by rw [spell_symbol, hinner.text], ?_⟩
  have hone := (Node.word (w := .symbol k) hl gap before hgap hbefore).set
  simp only [isSet, Bool.and_true] at hone
  simp only [isSet, symbol, hone, Bool.true_and]
  exact hinner.set

/-- A separator or a closing bracket, right after whatever stands before. -/
theorem Tail.symbol {k : TokenKind} (hk : k.isCalm = true) (hb : Tail b y) :
    Tail (symbol [] k :: b) ((Word.symbol k).text ++ y) := by
  intro before
  refine ⟨by simp [spell_symbol, (hb before).text], ?_⟩
  have htouch : before.all (·.touches k) = true := by
    cases before <;> simp [TokenKind.touches, hk]
  simpa [isSet, Chunk.symbol, Word.symbol, htouch] using (hb (some k)).set

/-- A bracket right after whatever stands before. -/
theorem Tail.opener {k : TokenKind} (hk : k.isCalm = true) (hbears : k.bears = true)
    (hb : Inner b y) : Tail (Chunk.symbol [] k :: b) ((Word.symbol k).text ++ y) := by
  intro before
  have hinner := hb (some k) (by simpa using hbears)
  refine ⟨by simp [spell_symbol, hinner.text], ?_⟩
  have htouch : before.all (·.touches k) = true := by
    cases before <;> simp [TokenKind.touches, hk]
  simpa [isSet, Chunk.symbol, Word.symbol, htouch] using hinner.set

/-- A word with a gap before it, and after it whatever may stand after any word. -/
theorem Tail.gapped {gap : List Char} (hgap : gap.all isBlank = true) (hne : gap ≠ []) (w : Word)
    (hb : Tail b y) : Tail (⟨gap, w⟩ :: b) (String.ofList gap ++ w.text ++ y) := by
  intro before
  refine ⟨?_, ?_⟩
  · rw [spell, String.ofList_append, String.ofList_append, String.ofList_toList,
      (hb (some w.kind)).text, String.append_assoc]
  · simpa [isSet, hgap, hne] using (hb (some w.kind)).set

theorem Tail.sign (k : TokenKind) (hb : Tail b y) :
    Tail (Chunk.symbol [' '] k :: b) (" " ++ (Word.symbol k).text ++ y) :=
  .gapped rfl (by simp) (.symbol k) hb

theorem Tail.keyword (k : Keyword) (hb : Tail b y) :
    Tail (Chunk.keyword [' '] k :: b) (" " ++ k.text ++ y) :=
  .gapped rfl (by simp) (.keyword k) hb

theorem Tail.lineSign (indent : Nat) (k : TokenKind) (hb : Tail b y) :
    Tail (Chunk.symbol (lineGap indent) k :: b)
      ("\n" ++ Layout.margin indent ++ (Word.symbol k).text ++ y) := by
  rw [← ofList_lineGap]
  exact .gapped (lineGap_isBlank indent) (by simp [lineGap]) (.symbol k) hb

theorem Tail.lineKeyword (indent : Nat) (k : Keyword) (hb : Tail b y) :
    Tail (Chunk.keyword (lineGap indent) k :: b)
      ("\n" ++ Layout.margin indent ++ k.text ++ y) := by
  rw [← ofList_lineGap]
  exact .gapped (lineGap_isBlank indent) (by simp [lineGap]) (.keyword k) hb

/-- Chunks that may stand after any word, with the text `x` except that the separator at its end
stands at its front. -/
def TurnedTail (sep : String) (chs : List Chunk) (x : String) : Prop :=
  ∃ text, Tail chs text ∧ sep ++ x = text ++ sep

theorem TurnedTail.nil {sep : String} : TurnedTail sep [] "" := ⟨"", .nil, by simp⟩

theorem TurnedTail.append {sep : String} (ha : TurnedTail sep a x) (hb : TurnedTail sep b y) :
    TurnedTail sep (a ++ b) (x ++ y) := by
  obtain ⟨text, ha, hx⟩ := ha
  obtain ⟨text', hb, hy⟩ := hb
  refine ⟨text ++ text', ha.append hb, ?_⟩
  rw [← String.append_assoc, hx, String.append_assoc, hy, String.append_assoc]

theorem Tail.turned {sep : String} (ha : Tail a (sep ++ x)) : TurnedTail sep a (x ++ sep) :=
  ⟨_, ha, by rw [String.append_assoc]⟩

/-- What goes on with the separator takes it over. -/
theorem TurnedTail.tail {sep : String} (ha : TurnedTail sep a x) (hb : Tail b (sep ++ y)) :
    Tail (a ++ b) (sep ++ (x ++ y)) := by
  obtain ⟨text, ha, hx⟩ := ha
  refine (ha.append hb).cast ?_
  rw [← String.append_assoc, ← hx, String.append_assoc]

theorem TurnedTail.cast {sep : String} (h : TurnedTail sep a x) (hx : x = y) :
    TurnedTail sep a y := hx ▸ h

end Chunk

end Script
