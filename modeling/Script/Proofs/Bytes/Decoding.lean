import Script.Bytes.Decoder
import Script.Proofs.Bytes.Tokens
import Script.Proofs.Interpolation

/-!
Literals decoded by bytes. A literal that the lexer reads has a body between its opener and its
closer, and every hole in it is a range of the source that begins and ends between characters.
-/
namespace Script.Bytes

open Chars (byteLength byteLength_append identPart_ascii)

variable {μ : Measure} {c x : Char} {cs pre : List Char}

theorem toUInt8_le (hx : x.utf8Size = 1) (hc : c.utf8Size = 1) :
    (decide (x.toUInt8 ≤ c.toUInt8)) = decide (x ≤ c) := by
  rw [decide_eq_decide, UInt8.le_iff_toNat_le, (toUInt8_toNat hx).1, (toUInt8_toNat hc).1,
    Chars.le_iff_toNat]

theorem isNameStart_ascii (hc : c.utf8Size = 1) :
    isNameStart c.toUInt8 = Chars.isIdentStart c := by
  have hle : ∀ x : Char, x.utf8Size = 1 → (decide (x.toUInt8 ≤ c.toUInt8)) = decide (x ≤ c) :=
    fun _ hx => toUInt8_le hx hc
  have hge : ∀ x : Char, x.utf8Size = 1 → (decide (c.toUInt8 ≤ x.toUInt8)) = decide (c ≤ x) :=
    fun _ hx => toUInt8_le hc hx
  have heq : ∀ x : Char, x.utf8Size = 1 → (c.toUInt8 == x.toUInt8) = (c == x) := by
    intro x hx
    rw [toUInt8_beq hc hx, Bool.beq_eq_decide_eq]
  rw [isNameStart, hle 'a' (by decide), hge 'z' (by decide), hle 'A' (by decide),
    hge 'Z' (by decide), heq '_' (by decide), heq '$' (by decide)]
  rfl

theorem isNamePart_ascii (hc : c.utf8Size = 1) :
    isNamePart c.toUInt8 = Chars.isIdentPart c := by
  rw [isNamePart, isNameStart_ascii hc, toUInt8_le (x := '0') (by decide) hc,
    toUInt8_le hc (x := c) (c := '9') (by decide)]
  rfl

theorem isNamePart_outer {b : UInt8} (hb : Outer b) : isNamePart b = false := by
  have hle : ∀ x : Char, x.utf8Size = 1 → decide (b ≤ x.toUInt8) = false := by
    intro x hx
    rw [decide_eq_false_iff_not, UInt8.le_iff_toNat_le]
    have := toUInt8_toNat hx
    rw [Outer] at hb
    omega
  have hne : ∀ x : Char, x.utf8Size = 1 → (b == x.toUInt8) = false :=
    fun x hx => beq_false_of_ne (hb.ne hx).symm
  rw [isNamePart, isNameStart, hle 'z' (by decide), hle 'Z' (by decide), hle '9' (by decide),
    hne '_' (by decide), hne '$' (by decide)]
  simp

theorem isNameStart_outer {b : UInt8} (hb : Outer b) : isNameStart b = false := by
  have hpart := isNamePart_outer hb
  rw [isNamePart, Bool.or_eq_false_iff] at hpart
  exact hpart.1

theorem head_nameStart (cs : List Char) :
    ((ofChars cs).head?.map isNameStart).getD false =
      (cs.head?.map Chars.isIdentStart).getD false := by
  cases cs with
  | nil => rfl
  | cons c cs =>
    rw [ofChars_cons]
    rcases ascii_or_outer c with hc | ⟨b, bs, hencode, hb⟩
    · rw [encode_ascii hc]
      exact isNameStart_ascii hc
    · have hstart : Chars.isIdentStart c = false := by
        by_contra h
        have hpart : Chars.isIdentPart c = true := by
          rw [Chars.isIdentPart, (Bool.not_eq_false _).mp h, Bool.true_or]
        rw [encode_ascii (identPart_ascii hpart)] at hencode
        exact hb.ne (identPart_ascii hpart) (List.cons.inj hencode).1
      rw [hencode]
      show isNameStart b = Chars.isIdentStart c
      rw [isNameStart_outer hb, hstart]

theorem nameRest_ofChars (cs : List Char) : nameRest (ofChars cs) = RawHole.nameRest cs := by
  fun_induction RawHole.nameRest cs with
  | case1 => rfl
  | case2 c cs hc ih =>
    have hascii := identPart_ascii hc
    rw [ofChars_cons, encode_ascii hascii, List.singleton_append, nameRest,
      if_pos (by rw [isNamePart_ascii hascii, hc]), ih]
  | case3 c cs hc hpoint ih =>
    rw [Bool.and_eq_true, decide_eq_true_iff] at hpoint
    obtain ⟨rfl, hstart⟩ := hpoint
    rw [ofChars_cons, encode_ascii (by decide), List.singleton_append, nameRest, if_neg (by decide),
      if_pos (by rw [head_nameStart, hstart]; decide), ih]
  | case4 c cs hc hpoint =>
    rw [ofChars_cons]
    rcases ascii_or_outer c with hascii | ⟨b, bs, hencode, hb⟩
    · have hc' : ¬ isNamePart c.toUInt8 = true := by rwa [isNamePart_ascii hascii]
      rw [encode_ascii hascii, List.singleton_append, nameRest, if_neg hc', head_nameStart,
        toUInt8_beq hascii (by decide), if_neg hpoint]
    · rw [hencode, List.cons_append, nameRest, if_neg (by rw [isNamePart_outer hb]; decide),
        beq_false_of_ne (hb.ne (c := '.') (by decide)).symm]
      rfl

theorem nameLength_ofChars (cs : List Char) : nameLength (ofChars cs) = RawHole.nameLength cs := by
  have hstart : ∀ cs : List Char, nameRest (ofChars cs) = RawHole.nameRest cs ∧
      ((ofChars cs).head?.map isNameStart).getD false =
        (cs.head?.map Chars.isIdentStart).getD false :=
    fun cs => ⟨nameRest_ofChars cs, head_nameStart cs⟩
  by_cases hpoint : cs.head? = some '.'
  · obtain ⟨rest, rfl⟩ := List.head?_eq_some_iff.1 hpoint
    have hdrop : (ofChars ('.' :: rest)).drop 1 = ofChars rest := rfl
    rw [nameLength, if_pos ((head_ascii (by decide) _).2 hpoint), hdrop, (hstart rest).1,
      (hstart rest).2, RawHole.nameLength, RawHole.pathLength]
    split
    · rename_i h
      cases rest with
      | nil => cases h
      | cons c rest =>
        have hpart : Chars.isIdentPart c = true := by
          rw [Chars.isIdentPart, show Chars.isIdentStart c = true from h, Bool.true_or]
        rw [RawHole.nameRest, if_pos hpart, if_neg (Nat.succ_ne_zero _), Nat.add_comm]
    · rfl
  · have hfirst : RawHole.nameLength cs = RawHole.pathLength cs := by
      unfold RawHole.nameLength
      split
      · exact absurd rfl hpoint
      · rfl
    rw [nameLength, if_neg (fun h => hpoint ((head_ascii (by decide) _).1 h)), List.drop_zero,
      (hstart cs).1, (hstart cs).2, hfirst, RawHole.pathLength]
    split
    · exact Nat.zero_add _
    · rfl

theorem nameRest_le (cs : List Char) : RawHole.nameRest cs ≤ cs.length := by
  fun_induction RawHole.nameRest cs with
  | case1 => exact Nat.le_refl _
  | case2 _ _ _ ih => exact Nat.succ_le_succ ih
  | case3 _ _ _ _ ih => exact Nat.succ_le_succ ih
  | case4 => exact Nat.zero_le _

theorem nameLength_le (cs : List Char) : RawHole.nameLength cs ≤ cs.length := by
  have hpath : ∀ cs : List Char, RawHole.pathLength cs ≤ cs.length := by
    intro cs
    unfold RawHole.pathLength
    split
    · exact nameRest_le cs
    · exact Nat.zero_le _
  unfold RawHole.nameLength
  split
  · split
    · exact Nat.zero_le _
    · exact Nat.succ_le_succ (hpath _)
  · exact hpath _

/-- The name at the front of a text takes as many bytes as characters. -/
theorem byteLength_name (cs : List Char) :
    byteLength (cs.take (RawHole.nameLength cs)) = RawHole.nameLength cs := by
  have hascii : ∀ w : List Char, (∀ c ∈ w, RawHole.NameChar c) → byteLength w = w.length := by
    intro w hw
    induction w with
    | nil => rfl
    | cons c w ih =>
      have hc : c.utf8Size = 1 := by
        rcases hw c List.mem_cons_self with hpart | rfl
        · exact identPart_ascii hpart
        · decide
      rw [byteLength, hc, ih fun d hd => hw d (List.mem_cons_of_mem c hd), List.length_cons,
        Nat.add_comm]
  rw [hascii _ (RawHole.nameLength_chars cs), List.length_take_of_le (nameLength_le cs)]

/-! Holes and literals in bytes. -/

/-- The ranges of a hole, which are all that the parser needs to read it. -/
def HoleRange.of (h : RawHole) : HoleRange := ⟨h.kind, h.inner, h.span⟩

def Part.of : Piece → Part
  | .text s => .text s
  | .hole h => .hole (.of h)

def DecodedRanges.of (d : Decoded) : DecodedRanges := ⟨d.form, d.pieces.map Part.of⟩

/-- A hole ends where the characters that it takes do. -/
theorem read_stop {dollar n : Nat} {h : RawHole} (hr : RawHole.read dollar cs = .ok (h, n)) :
    h.span.stop = dollar + 1 + byteLength (cs.take n) := by
  unfold RawHole.read at hr
  split at hr
  · rename_i body
    split at hr
    · rename_i k hk
      obtain ⟨rfl, rfl⟩ := Prod.mk.inj (Except.ok.inj hr)
      obtain ⟨inner, hinner, hwhole⟩ := holeLength_last hk
      rw [List.take_succ_cons, byteLength, hwhole, byteLength_append]
      simp only [RawHole.span, RawHole.inner, RawHole.start, hinner, Chars.utf8ByteSize_ofList]
      show dollar + 2 + byteLength inner + 1 = dollar + 1 + (1 + (byteLength inner + 1))
      omega
    · cases hr
  · split at hr
    · cases hr
    · obtain ⟨rfl, rfl⟩ := Prod.mk.inj (Except.ok.inj hr)
      simp only [RawHole.span, RawHole.inner, RawHole.start, Chars.utf8ByteSize_ofList]

namespace Decoder

variable {d : Decoder} {bound : Nat}

theorem range_ok {i j : Nat} (h : i ≤ j) : d.range i j = .ok ⟨d.base + i, d.base + j⟩ :=
  span_ok (Nat.add_le_add_left h _)

theorem fail_ok {α : Type} {i j : Nat} (fault : LexFault) (h : i ≤ j) :
    (d.fail fault i j : Checked (Except LexError α)) =
      .ok (.error ⟨fault, d.base + i, d.base + j⟩) := by
  rw [fail, range_ok h]
  rfl

theorem hole_brace (hμ : Measures μ holeLength bound) (hb : cs.length < bound)
    (hbody : d.body = pre ++ '$' :: '{' :: cs) :
    d.hole μ (byteLength pre) =
      .ok ((HoleRange.of ·.1) <$> RawHole.read (d.base + byteLength pre) ('{' :: cs)) := by
  have hrest : sliceFrom (byteLength pre + 1) d.body = .ok ('{' :: cs) := by
    rw [hbody, ← List.singleton_append, ← List.append_assoc]
    exact sliceFrom_append (by rw [byteLength_append]; rfl)
  have htext : sliceFrom 1 ('{' :: cs) = .ok cs := sliceFrom_append (a := ['{']) rfl
  rw [hole, hrest]
  simp only [bind, Except.bind, List.head?_cons, if_true, htext, hμ cs hb, RawHole.read]
  cases hk : holeLength cs with
  | error fault =>
    simp only [inBytes, Functor.map, Except.map]
    exact fail_ok fault (Nat.le_succ _)
  | ok n =>
    obtain ⟨inner, hinner, hwhole⟩ := holeLength_last hk
    have hlast : byteLength (cs.take n) = byteLength inner + 1 := by
      rw [hwhole, byteLength_append]
      rfl
    simp only [inBytes, Functor.map, Except.map, hlast]
    have hstop : byteLength pre + 2 + (byteLength inner + 1) - 1 =
        byteLength pre + 2 + byteLength inner := by omega
    rw [sub_ok (by omega), hstop]
    dsimp only
    rw [range_ok (Nat.le_add_right _ _)]
    dsimp only
    rw [range_ok (by omega)]
    simp only [pure, Except.pure, HoleRange.of, RawHole.inner, RawHole.span, RawHole.start, hinner,
      Chars.utf8ByteSize_ofList, Nat.add_assoc]

theorem hole_name (hbrace : cs.head? ≠ some '{') (hbody : d.body = pre ++ '$' :: cs) :
    d.hole μ (byteLength pre) =
      .ok ((HoleRange.of ·.1) <$> RawHole.read (d.base + byteLength pre) cs) := by
  have hrest : sliceFrom (byteLength pre + 1) d.body = .ok cs := by
    rw [hbody, ← List.singleton_append, ← List.append_assoc]
    exact sliceFrom_append (by rw [byteLength_append]; rfl)
  rw [hole, hrest, RawHole.read_name hbrace]
  simp only [bind, Except.bind, if_neg hbrace, nameLength_ofChars]
  split
  · exact fail_ok _ (Nat.le_succ _)
  · rw [range_ok (Nat.le_add_right _ _)]
    dsimp only
    rw [range_ok (by omega)]
    simp only [pure, Except.pure, Functor.map, Except.map, HoleRange.of, RawHole.inner,
      RawHole.span, RawHole.start, Chars.utf8ByteSize_ofList, byteLength_name, Nat.add_assoc]

/-- A hole of the body is found where it is found by characters. -/
theorem hole_ok (hμ : Measures μ holeLength bound) (hb : cs.length ≤ bound)
    (hbody : d.body = pre ++ '$' :: cs) :
    d.hole μ (byteLength pre) =
      .ok ((HoleRange.of ·.1) <$> RawHole.read (d.base + byteLength pre) cs) := by
  by_cases hbrace : cs.head? = some '{'
  · obtain ⟨rest, rfl⟩ := List.head?_eq_some_iff.1 hbrace
    exact hole_brace hμ hb hbody
  · exact hole_name hbrace hbody

theorem ofRun_eq (run : List Char) : ofRun run = (Piece.ofRun run).map Part.of := by
  unfold ofRun Piece.ofRun
  split <;> rfl

/-- The parts that are made of the atoms of a body. -/
def partsOf (run : List Char) (atoms : List Piece.Atom) : List Part :=
  (Piece.join run atoms).map Part.of

theorem partsOf_char (run : List Char) (c : Char) (found : Except LexError (List Piece.Atom)) :
    partsOf run <$> (.char c :: ·) <$> found = partsOf (c :: run) <$> found := by
  cases found <;> rfl

theorem partsOf_hole (run : List Char) (h : RawHole) (found : Except LexError (List Piece.Atom)) :
    partsOf run <$> (.hole h :: ·) <$> found =
      (ofRun run ++ .hole (.of h) :: ·) <$> partsOf [] <$> found := by
  cases found with
  | error => rfl
  | ok atoms =>
    refine congrArg Except.ok ?_
    simp only [partsOf, Piece.join, List.map_append, List.map_cons, ofRun_eq]
    rfl

theorem parts_past {run : List Char} {consumed i : Nat} (h : i < consumed) :
    d.parts μ run consumed i (c :: cs) = d.parts μ run consumed (i + c.utf8Size) cs := by
  cases cs <;> exact if_pos h

theorem parts_next {run : List Char} {consumed i : Nat} (h : consumed ≤ i) :
    d.parts μ run consumed i (c :: cs) =
      if c = '\\' && d.form.hasEscapes then
        match cs with
        | [] => d.fail .unterminatedString i (i + 1)
        | e :: rest =>
          match d.form.unescape? e with
          | some x => d.parts μ (x :: run) consumed (i + c.utf8Size + e.utf8Size) rest
          | none => d.fail (.invalidEscape e) i (i + 1 + e.utf8Size)
      else if c = '$' && d.form.hasHoles then do
        match ← d.hole μ i with
        | .error e => return .error e
        | .ok h =>
          let consumed ← sub h.span.stop d.base
          let rest ← d.parts μ [] consumed (i + c.utf8Size) cs
          return (fun more => ofRun run ++ .hole h :: more) <$> rest
      else d.parts μ (c :: run) consumed (i + c.utf8Size) cs := by
  cases cs <;> exact if_neg (Nat.not_lt.2 h)

/-- From the boundary after `pre` on, the parts are those that are found by characters. `consumed` is
the end of the characters to be skipped, where there are any. -/
def Agrees (d : Decoder) (μ : Measure) (pre cs : List Char) : Prop :=
  ∀ run skip consumed,
    max (byteLength pre) consumed = byteLength pre + byteLength (cs.take skip) →
      d.parts μ run consumed (byteLength pre) cs =
        .ok (partsOf run <$> Piece.atoms d.form skip (d.base + byteLength pre) cs)

variable {run : List Char} {consumed skip : Nat}

theorem agrees_nil (d : Decoder) (μ : Measure) (pre : List Char) : d.Agrees μ pre [] := by
  intro run skip consumed _
  show Except.ok (Except.ok (ofRun run)) = Except.ok (Except.ok ((Piece.ofRun run).map Part.of))
  rw [ofRun_eq]

/-- Where nothing is to be skipped, the parts go on behind what is read. -/
theorem Agrees.on (h : d.Agrees μ pre cs) (hle : consumed ≤ byteLength pre) (run : List Char) :
    d.parts μ run consumed (byteLength pre) cs =
      .ok (partsOf run <$> Piece.atoms d.form 0 (d.base + byteLength pre) cs) :=
  h run 0 consumed (Nat.max_eq_left hle)

theorem parts_skipped (h : d.Agrees μ (pre ++ [c]) cs)
    (hskip : max (byteLength pre) consumed =
      byteLength pre + byteLength ((c :: cs).take (skip + 1))) :
    d.parts μ run consumed (byteLength pre) (c :: cs) =
      .ok (partsOf run <$> Piece.atoms d.form (skip + 1) (d.base + byteLength pre) (c :: cs)) := by
  have hsize := c.utf8Size_pos
  have hnext : byteLength (pre ++ [c]) = byteLength pre + c.utf8Size := byteLength_append pre [c]
  rw [List.take_succ_cons, byteLength] at hskip
  rw [parts_past (by omega), ← hnext, h run skip consumed (by rw [hnext]; omega), hnext,
    Piece.atoms, Nat.add_assoc]

theorem parts_escape (hle : consumed ≤ byteLength pre) (he : d.form.hasEscapes = true)
    (h : ∀ e rest, cs = e :: rest → d.Agrees μ (pre ++ ['\\', e]) rest) :
    d.parts μ run consumed (byteLength pre) ('\\' :: cs) =
      .ok (partsOf run <$> Piece.atoms d.form 0 (d.base + byteLength pre) ('\\' :: cs)) := by
  rw [parts_next hle, Piece.atoms_zero, if_pos (by simp [he]), if_pos (by simp [he])]
  cases cs with
  | nil => exact fail_ok _ (Nat.le_succ _)
  | cons e rest =>
    dsimp only
    cases d.form.unescape? e with
    | none =>
      dsimp only
      rw [Nat.add_assoc (d.base + _), Nat.add_assoc (byteLength pre), Nat.add_assoc d.base]
      exact fail_ok _ (Nat.le_add_right _ _)
    | some x =>
      have hpair : byteLength (pre ++ ['\\', e]) = byteLength pre + 1 + e.utf8Size := by
        rw [byteLength_append, Nat.add_assoc]
        rfl
      have hle' : consumed ≤ byteLength (pre ++ ['\\', e]) := by omega
      have hrest := (h e rest rfl).on hle' (x :: run)
      rw [hpair, ← Nat.add_assoc, ← Nat.add_assoc] at hrest
      dsimp only
      rw [partsOf_char, ← hrest]
      rfl

theorem parts_hole (hμ : Measures μ holeLength bound) (hb : cs.length ≤ bound)
    (hbody : d.body = pre ++ '$' :: cs) (hle : consumed ≤ byteLength pre)
    (hf : d.form.hasHoles = true) (h : d.Agrees μ (pre ++ ['$']) cs) :
    d.parts μ run consumed (byteLength pre) ('$' :: cs) =
      .ok (partsOf run <$> Piece.atoms d.form 0 (d.base + byteLength pre) ('$' :: cs)) := by
  have hnext : byteLength (pre ++ ['$']) = byteLength pre + 1 := byteLength_append pre ['$']
  rw [parts_next hle, Piece.atoms_zero, if_neg (by simp), if_pos (by simp [hf]),
    if_neg (by simp), if_pos (by simp [hf]), hole_ok hμ hb hbody]
  cases hread : RawHole.read (d.base + byteLength pre) cs with
  | error e => rfl
  | ok x =>
    obtain ⟨hole, n⟩ := x
    -- The hole ends where its characters do, so these are the ones to be skipped.
    have hstop : hole.span.stop = d.base + (byteLength pre + 1 + byteLength (cs.take n)) := by
      rw [read_stop hread]
      omega
    have hsub : sub hole.span.stop d.base = .ok (byteLength pre + 1 + byteLength (cs.take n)) := by
      rw [sub_ok (by omega), hstop, Nat.add_sub_cancel_left]
    have hrest := h [] n (byteLength pre + 1 + byteLength (cs.take n))
      (by rw [hnext]; exact Nat.max_eq_right (Nat.le_add_right _ _))
    rw [hnext, ← Nat.add_assoc] at hrest
    have hsize : '$'.utf8Size = 1 := by decide
    dsimp only
    rw [partsOf_hole]
    simp only [bind, Except.bind, Functor.map, Except.map, pure, Except.pure, HoleRange.of, hsub,
      hsize, hrest]

theorem parts_plain (hle : consumed ≤ byteLength pre)
    (hescape : ¬ (decide (c = '\\') && d.form.hasEscapes) = true)
    (hhole : ¬ (decide (c = '$') && d.form.hasHoles) = true) (h : d.Agrees μ (pre ++ [c]) cs) :
    d.parts μ run consumed (byteLength pre) (c :: cs) =
      .ok (partsOf run <$> Piece.atoms d.form 0 (d.base + byteLength pre) (c :: cs)) := by
  have hnext : byteLength (pre ++ [c]) = byteLength pre + c.utf8Size := byteLength_append pre [c]
  rw [parts_next hle, Piece.atoms_zero, if_neg hescape, if_neg hescape, if_neg hhole,
    if_neg hhole, partsOf_char, Nat.add_assoc, ← hnext]
  exact h.on (by omega) (c :: run)

theorem parts_agree (hμ : Measures μ holeLength bound) (n : Nat) (hn : cs.length ≤ n)
    (hb : cs.length ≤ bound) (pre : List Char) (hbody : d.body = pre ++ cs) :
    d.Agrees μ pre cs := by
  induction n generalizing cs pre with
  | zero =>
    obtain rfl := List.length_eq_zero_iff.1 (Nat.le_zero.1 hn)
    exact agrees_nil d μ pre
  | succ n ih =>
    cases cs with
    | nil => exact agrees_nil d μ pre
    | cons c cs =>
      rw [List.length_cons] at hn hb
      have hrest : d.Agrees μ (pre ++ [c]) cs :=
        ih (by omega) (by omega) _ (by rw [hbody, List.append_assoc, List.singleton_append])
      intro run skip consumed hskip
      cases skip with
      | succ skip => exact parts_skipped hrest hskip
      | zero =>
        rw [List.take_zero, byteLength] at hskip
        have hle : consumed ≤ byteLength pre := by omega
        by_cases hescape : (decide (c = '\\') && d.form.hasEscapes) = true
        · obtain ⟨hc, he⟩ := (Bool.and_eq_true _ _).mp hescape
          obtain rfl := of_decide_eq_true hc
          refine parts_escape hle he ?_
          rintro e rest rfl
          rw [List.length_cons] at hn hb
          exact ih (by omega) (by omega) _ (by simp [hbody])
        by_cases hhole : (decide (c = '$') && d.form.hasHoles) = true
        · obtain ⟨hc, hf⟩ := (Bool.and_eq_true _ _).mp hhole
          obtain rfl := of_decide_eq_true hc
          exact parts_hole hμ (by omega) hbody hle hf hrest
        · exact parts_plain hle hescape hhole hrest

end Decoder

/-- A literal is taken apart without breach, to the parts that are found by characters. -/
theorem decode_ok {form : StringForm} {body : List Char} (start : Nat)
    (ho : StringForm.opening? (form.opener ++ (body ++ form.closer)) = some form) :
    decode (form.opener ++ (body ++ form.closer)) start =
      .ok (DecodedRanges.of <$>
        Script.decode (String.ofList (form.opener ++ (body ++ form.closer))) start) := by
  have hstop : byteLength (form.opener ++ (body ++ form.closer)) - byteLength form.closer =
      byteLength form.opener + byteLength body := by
    rw [byteLength_append, byteLength_append]
    omega
  have hsub : sub (byteLength (form.opener ++ (body ++ form.closer))) (byteLength form.closer) =
      .ok (byteLength form.opener + byteLength body) := by
    rw [sub_ok (by rw [byteLength_append, byteLength_append]; omega), hstop]
  have hparts := @Decoder.parts_agree (holeWithin body.length) body
    ⟨form, body, start + byteLength form.opener⟩ body.length (measures_holeWithin _) body.length
    (Nat.le_refl _) (Nat.le_refl _) [] rfl [] 0 0 rfl
  rw [decode, ho, Script.decode, String.toList_ofList, ho]
  dsimp only [Option.getD_some]
  rw [hsub, StringForm.body_closer]
  dsimp only [bind, Except.bind]
  rw [slice_append rfl rfl]
  dsimp only [byteLength, Nat.add_zero] at hparts ⊢
  rw [hparts]
  cases Piece.atoms form 0 (start + byteLength form.opener) body <;> rfl

end Script.Bytes
