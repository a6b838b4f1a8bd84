import Script.Proofs.Bytes.Decoding
import Script.Proofs.Complete.Expression
import Script.Proofs.Lexing.Cuts
import Script.Proofs.Lexing.Gaps
import Script.Proofs.Printed.Names
import Script.Proofs.Printed.Spans
import Script.Proofs.Printed.Text

/-!
Names by their characters and by their tokens. The decoder takes the name of a hole off the front of
a text character by character, where a point belongs to the name if a segment follows it. What it
takes is the longest front of the text that is lexed as the tokens of a name with nothing between
them, and the parser reads these tokens as this name.
-/
namespace Script

open Chars

/-- The kinds of the tokens of a name that does not begin with a point. -/
inductive PathKinds : List TokenKind → Prop
  | last : PathKinds [.ident]
  | more {ks : List TokenKind} (h : PathKinds ks) : PathKinds (.ident :: .dot :: ks)

/-- Each token begins where the one before it ends, and the first at `pos`. -/
def Token.Adjoining (pos : Nat) : List Token → Prop
  | [] => True
  | t :: ts => t.start = pos ∧ Adjoining t.stop ts

/-- A text that stands at byte position `base` is lexed as the tokens of a name and the end token,
and nothing stands between or around them. -/
structure NameTokens (base : Nat) (w : List Char) (ts : List Token) (last : Token) : Prop where
  lexed : Lexed.ofString base (String.ofList w) = ⟨ts, .ok last⟩
  kinds : PathKinds (ts.map Token.kind) ∨
    ∃ ks, ts.map Token.kind = .dot :: ks ∧ PathKinds ks
  adjoining : Token.Adjoining base (ts ++ [last])

/-- A name that can be written: it has segments, and they are identifiers. -/
structure Name.Writable (n : Name) : Prop where
  nonempty : n.segments ≠ []
  proper : ∀ i ∈ n.segments, i.isProper = true

/-- The characters of segments behind points. -/
def Ident.pointed (is : List Ident) : List Char := is.flatMap fun i => '.' :: i.text.toList

section Characters

variable {cs w r : List Char} {is : List Ident} {i : Ident} {n : Name}

theorem Name.path_toList (relative : Bool) (i : Ident) (is : List Ident) (span : Span) :
    (Name.mk relative (i :: is) span).path.toList =
      (if relative then ['.'] else []) ++ (i.text.toList ++ Ident.pointed is) := by
  have hjoin : ∀ is : List Ident,
      (String.join ((is.map Ident.text).map ("." ++ ·))).toList = Ident.pointed is := by
    intro is
    induction is with
    | nil => rfl
    | cons j is ih =>
      rw [List.map_cons, List.map_cons, String.join_cons, String.toList_append, ih,
        String.toList_append]
      rfl
  rw [Name.path, String.toList_append, List.map_cons, Layout.intercalate_cons,
    String.toList_append, hjoin]
  cases relative with
  | true => rw [if_pos rfl, if_pos rfl]; rfl
  | false => rw [if_neg Bool.false_ne_true, if_neg Bool.false_ne_true]; rfl

namespace RawHole

theorem nameRest_word (hw : ∀ c ∈ w, isIdentPart c = true) (r : List Char) :
    nameRest (w ++ r) = w.length + nameRest r := by
  induction w with
  | nil => rw [List.nil_append, List.length_nil, Nat.zero_add]
  | cons c w ih =>
    rw [List.forall_mem_cons] at hw
    rw [List.cons_append, nameRest, if_pos hw.1, ih hw.2, List.length_cons]
    omega

theorem nameRest_pointed (h : ∀ i ∈ is, i.isProper = true) (r : List Char) :
    nameRest (Ident.pointed is ++ r) = (Ident.pointed is).length + nameRest r := by
  induction is with
  | nil => rw [Ident.pointed, List.flatMap_nil, List.nil_append, List.length_nil, Nat.zero_add]
  | cons i is ih =>
    rw [List.forall_mem_cons] at h
    obtain ⟨c, w, htext, hc, -⟩ := Ident.isProper_iff.1 h.1
    have hword := nameRest_word (Ident.parts_of_isProper h.1) (Ident.pointed is ++ r)
    have hcons : Ident.pointed (i :: is) = '.' :: (i.text.toList ++ Ident.pointed is) := rfl
    rw [hcons, List.cons_append, List.append_assoc, nameRest, if_neg (by decide), if_pos, hword,
      ih h.2, List.length_cons, List.length_append]
    · omega
    · rw [htext]
      simp [hc]

/-- What is counted is a word and segments behind it. -/
theorem nameRest_split (cs : List Char) : ∃ is : List Ident, (∀ i ∈ is, i.isProper = true) ∧
    cs.take (nameRest cs) = cs.takeWhile isIdentPart ++ Ident.pointed is := by
  fun_induction nameRest cs with
  | case1 => exact ⟨[], by simp, rfl⟩
  | case2 c cs hc ih =>
    obtain ⟨is, his, htake⟩ := ih
    refine ⟨is, his, ?_⟩
    rw [List.take_succ_cons, htake, List.takeWhile_cons_of_pos hc, List.cons_append]
  | case3 c cs hc hpoint ih =>
    obtain ⟨is, his, htake⟩ := ih
    rw [Bool.and_eq_true, decide_eq_true_iff] at hpoint
    obtain ⟨rfl, hstart⟩ := hpoint
    cases cs with
    | nil => cases hstart
    | cons d cs =>
      have hd : isIdentStart d = true := hstart
      have hpart : isIdentPart d = true := by rw [isIdentPart, hd, Bool.true_or]
      refine ⟨⟨String.ofList ((d :: cs).takeWhile isIdentPart), default⟩ :: is, ?_, ?_⟩
      · refine List.forall_mem_cons.2 ⟨Ident.isProper_iff.2 ⟨d, cs.takeWhile isIdentPart, ?_, hd, ?_⟩,
          his⟩
        · rw [String.toList_ofList, List.takeWhile_cons_of_pos hpart]
        · exact fun e he => List.mem_takeWhile_imp he
      · rw [List.take_succ_cons, htake, List.takeWhile_cons_of_neg hc, List.nil_append]
        simp [Ident.pointed]
  | case4 c cs hc hpoint =>
    refine ⟨[], by simp, ?_⟩
    rw [List.take_zero, List.takeWhile_cons_of_neg hc]
    rfl

theorem pathLength_name (h : 0 < pathLength cs) : ∃ i is, (∀ j ∈ i :: is, j.isProper = true) ∧
    cs.take (pathLength cs) = i.text.toList ++ Ident.pointed is := by
  unfold pathLength at h ⊢
  split at h
  · rename_i hstart
    rw [if_pos hstart]
    obtain ⟨is, his, htake⟩ := nameRest_split cs
    cases cs with
    | nil => cases hstart
    | cons c cs =>
      have hc : isIdentStart c = true := hstart
      have hpart : isIdentPart c = true := by rw [isIdentPart, hc, Bool.true_or]
      rw [List.takeWhile_cons_of_pos hpart] at htake
      refine ⟨⟨String.ofList (c :: cs.takeWhile isIdentPart), default⟩, is, ?_, ?_⟩
      · refine List.forall_mem_cons.2 ⟨Ident.isProper_iff.2 ⟨c, cs.takeWhile isIdentPart, ?_, hc,
          ?_⟩, his⟩
        · rw [String.toList_ofList]
        · exact fun d hd => List.mem_takeWhile_imp hd
      · rw [htake, String.toList_ofList]
  · exact absurd h (Nat.lt_irrefl 0)

/-- What is taken off the front of a text is the path of a name. -/
theorem nameLength_name (h : 0 < nameLength cs) :
    ∃ n : Name, n.Writable ∧ n.path.toList = cs.take (nameLength cs) := by
  unfold nameLength at h ⊢
  split at h
  · rename_i rest
    split at h
    · exact absurd h (Nat.lt_irrefl 0)
    · rename_i hpath
      obtain ⟨i, is, hproper, htake⟩ := pathLength_name (Nat.pos_of_ne_zero hpath)
      refine ⟨⟨true, i :: is, default⟩, ⟨List.cons_ne_nil i is, hproper⟩, ?_⟩
      rw [if_neg hpath, List.take_succ_cons, htake, Name.path_toList]
      rfl
  · rename_i hpoint
    obtain ⟨i, is, hproper, htake⟩ := pathLength_name h
    refine ⟨⟨false, i :: is, default⟩, ⟨List.cons_ne_nil i is, hproper⟩, ?_⟩
    rw [Name.path_toList, htake]
    rfl

theorem le_pathLength (h : ∀ j ∈ i :: is, j.isProper = true) (r : List Char) :
    (i.text.toList ++ Ident.pointed is).length ≤
      pathLength (i.text.toList ++ (Ident.pointed is ++ r)) := by
  rw [List.forall_mem_cons] at h
  obtain ⟨c, w, htext, hc, -⟩ := Ident.isProper_iff.1 h.1
  rw [pathLength, if_pos (by rw [htext]; simp [hc]), nameRest_word (Ident.parts_of_isProper h.1),
    nameRest_pointed h.2, List.length_append]
  omega

/-- The path of a name at the front of a text is taken, and maybe more. -/
theorem le_nameLength (hn : n.Writable) (r : List Char) :
    n.path.toList.length ≤ nameLength (n.path.toList ++ r) := by
  obtain ⟨relative, segments, span⟩ := n
  obtain ⟨hne, hproper⟩ := hn
  cases segments with
  | nil => exact absurd rfl hne
  | cons i is =>
    have hle := le_pathLength hproper r
    obtain ⟨c, w, htext, hc, -⟩ := Ident.isProper_iff.1 (hproper i List.mem_cons_self)
    rw [Name.path_toList, List.append_assoc, List.append_assoc]
    cases relative with
    | true =>
      have hne : (i.text.toList ++ Ident.pointed is).length ≠ 0 := by
        rw [htext]
        simp
      simp only [if_true, List.cons_append, List.nil_append, List.length_cons, nameLength]
      rw [if_neg (by omega)]
      omega
    | false =>
      have hpoint : c ≠ '.' := by
        rintro rfl
        exact absurd hc (by decide)
      rw [htext] at hle ⊢
      simp only [Bool.false_eq_true, if_false, List.nil_append]
      unfold nameLength
      split
      · rename_i heq
        exact absurd (List.cons.inj heq).1 hpoint
      · exact hle

end RawHole

end Characters

section Tokens

variable {base pos : Nat} {newline after : Bool} {w r : List Char} {ts : List Token}
  {last : Token} {n : Name}

namespace Chunk

theorem place_kinds (pos : Nat) (chs : List Chunk) :
    (place pos chs).map Token.kind = chs.map fun ch => ch.word.kind := by
  induction chs generalizing pos with
  | nil => rfl
  | cons ch chs ih =>
    rw [place_cons, List.map_cons, ih, List.map_cons]
    rfl

/-- Chunks without gaps are placed one right after the other. -/
theorem place_adjoining {chs : List Chunk} (h : ∀ ch ∈ chs, ch.gap = []) (pos : Nat)
    (newline : Bool) :
    Token.Adjoining pos
      (place pos chs ++ [Token.endAt (pos + byteLength (spell chs)) newline]) := by
  induction chs generalizing pos with
  | nil => exact ⟨rfl, trivial⟩
  | cons ch chs ih =>
    obtain ⟨gap, word⟩ := ch
    rw [List.forall_mem_cons] at h
    obtain ⟨rfl, hrest⟩ := h
    refine ⟨rfl, ?_⟩
    have hsize : byteLength (spell (⟨[], word⟩ :: chs)) =
        word.text.utf8ByteSize + byteLength (spell chs) := by
      rw [spell, List.nil_append, byteLength_append, byteLength_toList]
    rw [hsize, ← Nat.add_assoc]
    exact ih hrest (pos + word.text.utf8ByteSize)

end Chunk

theorem Ident.chunksPath_kinds (i : Ident) (is : List Ident) :
    PathKinds ((Ident.chunksPath [] (i :: is)).map fun ch => ch.word.kind) := by
  induction is generalizing i with
  | nil => exact .last
  | cons j is ih => exact .more (ih j)

theorem Ident.chunksPath_gaps (is : List Ident) : ∀ ch ∈ Ident.chunksPath [] is, ch.gap = [] := by
  cases is with
  | nil => simp [Ident.chunksPath]
  | cons i is =>
    refine List.forall_mem_cons.2 ⟨rfl, fun ch hch => ?_⟩
    obtain ⟨j, -, hj⟩ := List.mem_flatMap.1 hch
    rw [List.mem_cons, List.mem_singleton] at hj
    rcases hj with rfl | rfl <;> rfl

/-- The path of a name is lexed as the tokens of a name. They are written for this name, apart from
its spans. -/
theorem Name.Writable.nameTokens (hn : n.Writable) (base : Nat) :
    ∃ ts last, NameTokens base n.path.toList ts last ∧
      ∃ m : Name, m.path = n.path ∧ m.Written ts := by
  have hreadable : ∀ i ∈ n.segments, Word.Readable ⟨.ident, i.text⟩ :=
    fun i hi => Word.readable_proper (hn.proper i hi)
  have hprinted := Name.printed hn.nonempty hreadable
  have hspells := n.prints [] none rfl (.inr (by simp))
  obtain ⟨m, herase, hwritten⟩ := hprinted.written [] 0 base
  have hpath : n.path.toList = Chunk.spell (n.chunks []) := by
    have htext := congrArg String.toList hspells.text
    rw [String.toList_ofList, String.ofList_nil, String.empty_append] at htext
    exact htext.symm
  have hspell : (String.ofList n.path.toList).toList = Chunk.spell (n.chunks []) := by
    rw [String.toList_ofList, hpath]
  have hlexed := Chunk.lexed base hspell hspells.set (hprinted.readable [] 0)
  refine ⟨_, _, ⟨hlexed, ?_, ?_⟩, m, ?_, hwritten⟩
  · obtain ⟨relative, segments, span⟩ := n
    obtain ⟨i, is, rfl⟩ := List.exists_cons_of_ne_nil hn.nonempty
    rw [Chunk.place_kinds]
    cases relative with
    | true => exact .inr ⟨_, rfl, Ident.chunksPath_kinds i is⟩
    | false => exact .inl (Ident.chunksPath_kinds i is)
  · rw [utf8ByteSize_ofList, hpath]
    refine Chunk.place_adjoining ?_ base false
    obtain ⟨relative, segments, span⟩ := n
    cases relative with
    | true => exact List.forall_mem_cons.2 ⟨rfl, Ident.chunksPath_gaps segments⟩
    | false => exact Ident.chunksPath_gaps segments
  · have hmap := congrArg Name.path herase
    rwa [Name.erase, Name.erase, Name.mapSpans_path, Name.mapSpans_path] at hmap

/-- A run whose tokens adjoin reads nothing but their texts. -/
theorem Scans.texts (h : Scans pos newline w r ts after)
    (ha : Token.Adjoining pos (ts ++ [Token.endAt (pos + byteLength w) after])) :
    w = ts.flatMap fun t => t.text.toList := by
  induction ts generalizing pos newline w with
  | nil =>
    have hpos : pos + byteLength w = pos := ha.1
    have hlength := length_le_byteLength w
    exact List.length_eq_zero_iff.1 (by omega)
  | cons t ts ih =>
    obtain ⟨hstart, hadjoining⟩ := ha
    obtain ⟨gap, rest, rfl, -, hgap, hrest⟩ := h.first
    have hlength := length_le_byteLength gap
    obtain rfl : gap = [] := List.length_eq_zero_iff.1 (by omega)
    have hend : pos + byteLength ([] ++ (t.text.toList ++ rest)) = t.stop + byteLength rest := by
      rw [List.nil_append, byteLength_append, byteLength_toList, Token.stop, hstart, Nat.add_assoc]
    rw [hend] at hadjoining
    rw [List.flatMap_cons, List.nil_append, ← ih hrest hadjoining]

/-- The texts of tokens of these kinds are identifiers with points between them. -/
theorem PathKinds.idents {ks : List TokenKind} (h : PathKinds ks) (hks : ts.map Token.kind = ks)
    (hr : ∀ t ∈ ts, t.word.Readable) :
    ∃ i is, (∀ j ∈ i :: is, Ident.isProper j = true) ∧
      (ts.flatMap fun t => t.text.toList) = i.text.toList ++ Ident.pointed is := by
  have hident : ∀ t : Token, t.kind = .ident → t.word.Readable →
      Ident.isProper ⟨t.text, default⟩ = true := by
    intro t hk hread
    rw [Token.word, hk] at hread
    exact hread.isProper
  induction h generalizing ts with
  | last =>
    obtain ⟨t, rfl, hk⟩ := List.map_eq_singleton_iff.1 hks
    refine ⟨⟨t.text, default⟩, [], ?_, by simp [Ident.pointed]⟩
    simpa using hident t hk (hr t List.mem_cons_self)
  | more h ih =>
    obtain ⟨t, ts, rfl, hk, hks⟩ := List.map_eq_cons_iff.1 hks
    obtain ⟨d, ts, rfl, hd, hks⟩ := List.map_eq_cons_iff.1 hks
    rw [List.forall_mem_cons, List.forall_mem_cons] at hr
    obtain ⟨j, is, hproper, htexts⟩ := ih hks hr.2.2
    have hpoint : d.text = "." := hr.2.1.symbol (by rw [Token.word, hd]; rfl)
    refine ⟨⟨t.text, default⟩, j :: is, List.forall_mem_cons.2 ⟨hident t hk hr.1, hproper⟩, ?_⟩
    rw [List.flatMap_cons, List.flatMap_cons, htexts, hpoint]
    rfl

/-- A text that is lexed as the tokens of a name is the path of one. -/
theorem NameTokens.name (h : NameTokens base w ts last) :
    ∃ n : Name, n.Writable ∧ n.path.toList = w := by
  obtain ⟨after, hscans, rfl⟩ := lexed_iff.1 h.lexed
  rw [String.toList_ofList] at hscans
  have hadjoining := h.adjoining
  rw [utf8ByteSize_ofList] at hadjoining
  have htexts := hscans.texts hadjoining
  have hreadable : ∀ t ∈ ts, t.word.Readable := fun t ht => (hscans.mem ht).2
  rcases h.kinds with hkinds | ⟨ks, hks, hkinds⟩
  · obtain ⟨i, is, hproper, hpath⟩ := hkinds.idents rfl hreadable
    refine ⟨⟨false, i :: is, default⟩, ⟨List.cons_ne_nil i is, hproper⟩, ?_⟩
    rw [Name.path_toList, htexts, hpath]
    rfl
  · obtain ⟨d, ts, rfl, hd, hks⟩ := List.map_eq_cons_iff.1 hks
    rw [List.forall_mem_cons] at hreadable
    obtain ⟨i, is, hproper, hpath⟩ := hkinds.idents hks hreadable.2
    have hpoint : d.text = "." := hreadable.1.symbol (by rw [Token.word, hd]; rfl)
    refine ⟨⟨true, i :: is, default⟩, ⟨List.cons_ne_nil i is, hproper⟩, ?_⟩
    rw [Name.path_toList, htexts, List.flatMap_cons, hpath, hpoint]
    rfl

end Tokens

/-- The parser reads the tokens of a name up to the end token. -/
theorem Name.Written.read {base : Nat} {text : String} {ts : List Token} {last : Token} {n : Name}
    (h : n.Written ts) (hl : Lexed.ofString base text = ⟨ts, .ok last⟩) (s : Surroundings) :
    ∃ c, Parser.name s (Cursor.start ts last) = .ok n c ∧ c.rest = [last] := by
  obtain ⟨hweight, hsolid⟩ := Lexed.tokens_size hl
  have hend := Parser.final_end (s := s) (Lexed.last_kind hl)
  obtain ⟨c, hname, -, hrest⟩ := Parser.name_complete (s := s) h
    ⟨hsolid, Nat.lt_succ_of_le hweight⟩ (Cursor.start_rest ts last) (by simp) hend.dot
  exact ⟨c, hname, hrest⟩

namespace RawHole

variable {s : List Char}

/-- The front of a text that is taken as a name is lexed and parsed as one. -/
theorem nameLength_tokens (h : 0 < nameLength s) (base : Nat) :
    ∃ ts last, NameTokens base (s.take (nameLength s)) ts last ∧
      ∃ n : Name, n.path = String.ofList (s.take (nameLength s)) ∧
        ∀ surroundings, ∃ c, Parser.name surroundings (Cursor.start ts last) = .ok n c ∧
          c.rest = [last] := by
  obtain ⟨n, hproper, hpath⟩ := nameLength_name h
  obtain ⟨ts, last, htokens, m, hm, hwritten⟩ := hproper.nameTokens base
  rw [hpath] at htokens
  refine ⟨ts, last, htokens, m, ?_, hwritten.read htokens.lexed⟩
  rw [hm, ← hpath, String.ofList_toList]

/-- No longer front of a text has the tokens of a name. -/
theorem nameLength_longest {base : Nat} {w : List Char} {ts : List Token} {last : Token}
    (hw : w <+: s) (h : NameTokens base w ts last) : w.length ≤ nameLength s := by
  obtain ⟨n, hproper, rfl⟩ := h.name
  obtain ⟨r, rfl⟩ := hw
  exact le_nameLength hproper r

end RawHole

/-- A hole that is a name is read as this name. -/
theorem Parser.hole_name {literal : String} {start : Nat} {d : Decoded} {h : RawHole}
    (hd : decode literal start = .ok d) (hh : .hole h ∈ d.pieces) (hk : h.kind = .name)
    (nested : Nested) : ∃ n : Name, Parser.hole nested h = .ok (.nameHole n) ∧ n.path = h.text := by
  obtain ⟨pre, rest, k, -, hread⟩ := decode_found rfl hd hh
  obtain ⟨hpos, htext⟩ := RawHole.read_path hread hk
  obtain ⟨ts, last, htokens, n, hpath, hname⟩ := RawHole.nameLength_tokens hpos h.start
  obtain ⟨c, hname, hrest⟩ := hname .item
  have hlexed := htokens.lexed
  rw [← htext] at hlexed hpath
  refine ⟨n, ?_, hpath⟩
  rw [Parser.hole, hk]
  exact map_eq_ok.2 ⟨n, inHole_of_ok hlexed hname hrest, rfl⟩

/-- What the byte loop takes off the front of a text as a name, if it takes anything, is lexed as
the tokens of a name with nothing between them, and the parser reads all of these as a name whose
path is this text. No longer front of the text is lexed so, and if nothing is taken, then none is
but the empty one. So a hole that is a name is always read. -/
theorem RawHole.name_agrees :
    (∀ s : List Char, ∃ n, Bytes.nameLength (Bytes.ofChars s) = n ∧ n ≤ s.length ∧
      byteLength (s.take n) = n ∧
      (0 < n → ∀ base, ∃ ts last, NameTokens base (s.take n) ts last ∧
        ∃ name : Name, name.path = String.ofList (s.take n) ∧
          ∀ surroundings, ∃ c,
            Parser.name surroundings (Cursor.start ts last) = .ok name c ∧ c.rest = [last]) ∧
      (∀ base w ts last, w <+: s → NameTokens base w ts last → w.length ≤ n) ∧
      (n = 0 ↔ ∀ base w ts last, w <+: s → w ≠ [] → ¬ NameTokens base w ts last)) ∧
    ∀ (literal : String) (start : Nat) (d : Decoded), decode literal start = .ok d →
      ∀ h, .hole h ∈ d.pieces → h.kind = .name → ∀ nested,
        ∃ name : Name, Parser.hole nested h = .ok (.nameHole name) ∧ name.path = h.text := by
  refine ⟨fun s => ⟨nameLength s, Bytes.nameLength_ofChars s, Bytes.nameLength_le s,
    Bytes.byteLength_name s, nameLength_tokens, fun base w ts last => nameLength_longest, ?_⟩,
    fun literal start d hd h hh hk nested => Parser.hole_name hd hh hk nested⟩
  constructor
  · intro hzero base w ts last hw hne htokens
    have hle := nameLength_longest hw htokens
    exact hne (List.length_eq_zero_iff.1 (by omega))
  · intro hnone
    by_contra hpos
    obtain ⟨ts, last, htokens, -⟩ := nameLength_tokens (Nat.pos_of_ne_zero hpos) 0
    refine hnone 0 _ ts last (List.take_prefix _ _) ?_ htokens
    intro hnil
    have hlength := congrArg List.length hnil
    rw [List.length_take_of_le (Bytes.nameLength_le s)] at hlength
    exact hpos hlength

/-- A name ends before a point that a digit follows, and a dollar sign in it belongs to it. -/
theorem RawHole.name_agrees_dollar :
    Bytes.nameLength (Bytes.ofChars ".a$.b1.5x".toList) = 6 ∧
      (∃ ts last, NameTokens 0 ".a$.b1".toList ts last) ∧
      (∀ w ts last, w <+: ".a$.b1.5x".toList → NameTokens 0 w ts last → w.length ≤ 6) ∧
      decode "f`$.a$.b1.5x`" 0 =
        .ok ⟨.formattedTick, [.hole ⟨.name, ".a$.b1", 2⟩, .text ".5x"]⟩ ∧
      ∀ nested, ∃ name : Name,
        Parser.hole nested ⟨.name, ".a$.b1", 2⟩ = .ok (.nameHole name) ∧ name.path = ".a$.b1" := by
  obtain ⟨htexts, hholes⟩ := name_agrees
  obtain ⟨n, hn, -, -, htokens, hlongest, -⟩ := htexts ".a$.b1.5x".toList
  have hlength : Bytes.nameLength (Bytes.ofChars ".a$.b1.5x".toList) = 6 := by decide +kernel
  obtain rfl : 6 = n := hlength.symm.trans hn
  obtain ⟨ts, last, hfront, -⟩ := htokens (by decide) 0
  have hdecode : decode "f`$.a$.b1.5x`" 0 =
      .ok ⟨.formattedTick, [.hole ⟨.name, ".a$.b1", 2⟩, .text ".5x"]⟩ :=
    eq_ok_of_toOption (by decide +kernel)
  exact ⟨hlength, ⟨ts, last, hfront⟩, fun w ts last => hlongest 0 w ts last, hdecode,
    hholes _ 0 _ hdecode _ (by simp) rfl⟩

end Script
