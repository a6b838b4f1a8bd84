import Script.Bytes.Lexer
import Script.Proofs.Bytes.Slices
import Script.Proofs.Lexing.Local

/-!
The end of a literal, found by bytes. Whatever the literal holds, the walk over its bytes stops only
at the boundaries of characters: a byte of a character that is not ASCII is neither a closer nor a
backslash nor a dollar sign, and so it is passed over alone.
-/
namespace Script.Bytes

open Chars (byteLength byteLength_append)
open Lexeme (bodyLength bodyLength_zero)

/-- A number of characters of a text, in bytes. -/
def inBytes (cs : List Char) (x : Except LexFault Nat) : Except LexFault Nat :=
  (fun n => byteLength (cs.take n)) <$> x

/-- A measure in bytes answers as one in characters does, on texts shorter than `bound`. -/
def Measures (μ : Measure) (m : HoleMeasure) (bound : Nat) : Prop :=
  ∀ cs, cs.length < bound → μ cs = .ok (inBytes cs (m cs))

/-- Counting on after `k` characters, in bytes. -/
theorem inBytes_add (pre cs : List Char) (k : Nat) (x : Except LexFault Nat) :
    (byteLength pre + ·) <$> inBytes cs ((· + k) <$> x) =
      (byteLength (pre ++ cs.take k) + ·) <$> inBytes (cs.drop k) x := by
  cases x with
  | error fault => rfl
  | ok n =>
    refine congrArg Except.ok ?_
    show byteLength pre + byteLength (cs.take (n + k)) =
      byteLength (pre ++ cs.take k) + byteLength ((cs.drop k).take n)
    rw [Nat.add_comm n k, List.take_add, byteLength_append, byteLength_append, Nat.add_assoc]

variable {form : StringForm} {μ : Measure} {m : HoleMeasure} {text pre cs : List Char} {c : Char}
  {i bound : Nat}

theorem ascii_or_outer (c : Char) :
    c.utf8Size = 1 ∨ ∃ b bs, String.utf8EncodeChar c = b :: bs ∧ Outer b := by
  by_cases h : c.utf8Size = 1
  · exact .inl h
  · have hpos := c.utf8Size_pos
    cases hc : String.utf8EncodeChar c with
    | nil =>
      rw [← String.length_utf8EncodeChar, hc] at hpos
      exact absurd hpos (by simp)
    | cons b bs =>
      have houter := encode_outer (x := c) (by omega) b (by rw [hc]; exact List.mem_cons_self)
      exact .inr ⟨b, bs, rfl, houter⟩

theorem Outer.ne {b : UInt8} (h : Outer b) (hc : c.utf8Size = 1) : c.toUInt8 ≠ b := by
  rintro rfl
  have := toUInt8_toNat hc
  rw [Outer] at h
  omega

/-- An ASCII text is at the front of a text where its bytes are. -/
theorem isPrefixOf_ofChars (w : List Char) (hw : ∀ x ∈ w, x.utf8Size = 1) (cs : List Char) :
    (ofChars w).isPrefixOf (ofChars cs) = w.isPrefixOf cs := by
  induction w generalizing cs with
  | nil => simp [ofChars]
  | cons x w ih =>
    have hx := hw x (by simp)
    rw [ofChars_cons, encode_ascii hx]
    cases cs with
    | nil => rfl
    | cons c cs =>
      rw [ofChars_cons]
      rcases ascii_or_outer c with hc | ⟨b, bs, hencode, hb⟩
      · have hbeq : (x.toUInt8 == c.toUInt8) = (x == c) := by
          rw [Bool.eq_iff_iff, beq_iff_eq, beq_iff_eq, toUInt8_inj hx hc]
        rw [encode_ascii hc, List.cons_append, List.nil_append, List.cons_append, List.nil_append,
          List.isPrefixOf_cons_cons, List.isPrefixOf_cons_cons, hbeq,
          ih (fun y hy => hw y (by simp [hy]))]
      · have hne : x ≠ c := by
          rintro rfl
          rw [encode_ascii hx] at hencode
          exact hb.ne hx (List.cons.inj hencode).1
        rw [hencode, List.cons_append, List.nil_append, List.cons_append,
          List.isPrefixOf_cons_cons, List.isPrefixOf_cons_cons, beq_false_of_ne (hb.ne hx),
          beq_false_of_ne hne]
        rfl

theorem closer_ascii (form : StringForm) : ∀ x ∈ form.closer, x.utf8Size = 1 := by
  cases form <;> simp [StringForm.closer] <;> decide

theorem closer_not_outer (form : StringForm) {b : UInt8} (hb : Outer b) (bs : List UInt8) :
    (ofChars form.closer).isPrefixOf (b :: bs) = false := by
  have hhead : ∃ x w, form.closer = x :: w ∧ x.utf8Size = 1 := by
    cases form <;> exact ⟨_, _, rfl, by decide⟩
  obtain ⟨x, w, hcloser, hx⟩ := hhead
  rw [hcloser, ofChars_cons, encode_ascii hx, List.cons_append, List.isPrefixOf_cons_cons,
    beq_false_of_ne (hb.ne hx)]
  rfl

/-- One step of the walk, at a byte of the text. -/
theorem scanBody_step {b : UInt8} {bs : List UInt8} (h : (ofChars text).drop i = b :: bs) :
    scanBody form μ text i =
      if (ofChars form.closer).isPrefixOf (b :: bs) then .ok (.ok (i + byteLength form.closer))
      else if b == '\\'.toUInt8 && form.hasEscapes then scanBody form μ text (i + 2)
      else if b == '$'.toUInt8 && form.hasHoles && bs.head? == some '{'.toUInt8 then do
        let hole ← sliceFrom (i + 2) text
        match ← μ hole with
        | .ok n => scanBody form μ text (i + 2 + n)
        | .error fault => return .error fault
      else scanBody form μ text (i + 1) := by
  have hlt : i < (ofChars text).length := by
    rw [← Nat.not_le, ← List.drop_eq_nil_iff, h]
    simp
  have hget : (ofChars text)[i]? = some b := by
    rw [← List.head?_drop, h]
    rfl
  have hnext : (ofChars text)[i + 1]? = bs.head? := by
    have hdrop := congrArg (List.drop 1) h
    rw [List.drop_drop] at hdrop
    rw [← List.head?_drop, hdrop]
    rfl
  have hafter : bytesFrom i (ofChars text) = .ok (b :: bs) := by
    rw [bytesFrom, if_pos (Nat.le_of_lt hlt), h]
  have hbyte : byteAt i (ofChars text) = .ok b := by
    rw [byteAt, hget]
  rw [scanBody, if_pos hlt, hafter, hbyte, hnext, length_ofChars]
  rfl

theorem scanBody_done (h : byteLength text ≤ i) :
    scanBody form μ text i = .ok (.error .unterminatedString) := by
  rw [scanBody, if_neg (by rw [length_ofChars]; omega)]
  rfl

/-- A byte that is not ASCII is passed over. -/
theorem scanBody_outer {b : UInt8} {bs : List UInt8} (h : (ofChars text).drop i = b :: bs)
    (hb : Outer b) : scanBody form μ text i = scanBody form μ text (i + 1) := by
  have hescape : (b == '\\'.toUInt8) = false := beq_false_of_ne (hb.ne (c := '\\') (by decide)).symm
  have hdollar : (b == '$'.toUInt8) = false := beq_false_of_ne (hb.ne (c := '$') (by decide)).symm
  rw [scanBody_step h, closer_not_outer form hb, hescape, hdollar]
  rfl

theorem drop_ofChars (pre cs : List Char) (j : Nat) :
    (ofChars (pre ++ cs)).drop (byteLength pre + j) = (ofChars cs).drop j := by
  rw [ofChars_append, ← length_ofChars, List.drop_append, List.drop_of_length_le (by omega),
    Nat.add_sub_cancel_left, List.nil_append]

/-- From a byte of a character that is not ASCII, or after the character, the walk goes on behind
the character. -/
theorem scanBody_inside (form : StringForm) (μ : Measure) (pre cs : List Char) (c : Char)
    {j k : Nat} (hk : c.utf8Size = j + k) (h : 1 < c.utf8Size ∨ k = 0) :
    scanBody form μ (pre ++ c :: cs) (byteLength pre + j) =
      scanBody form μ (pre ++ c :: cs) (byteLength pre + c.utf8Size) := by
  induction k generalizing j with
  | zero => rw [hk, Nat.add_zero]
  | succ k ih =>
    have hsize : 1 < c.utf8Size := h.resolve_right (by omega)
    have hlt : j < (String.utf8EncodeChar c).length := by
      rw [String.length_utf8EncodeChar]
      omega
    have hdrop : (ofChars (pre ++ c :: cs)).drop (byteLength pre + j) =
        (String.utf8EncodeChar c)[j] :: ((String.utf8EncodeChar c).drop (j + 1) ++ ofChars cs) := by
      rw [drop_ofChars, ofChars_cons, List.drop_append_of_le_length (Nat.le_of_lt hlt),
        List.drop_eq_getElem_cons hlt, List.cons_append]
    rw [scanBody_outer hdrop (encode_outer hsize _ (List.getElem_mem hlt)), Nat.add_assoc]
    exact ih (by omega) (.inl hsize)

/-- At the boundary of a character the walk finds what is found by characters. -/
def Agrees (form : StringForm) (μ : Measure) (m : HoleMeasure) (pre cs : List Char) : Prop :=
  scanBody form μ (pre ++ cs) (byteLength pre) =
    .ok ((byteLength pre + ·) <$> inBytes cs (bodyLength form m 0 cs))

theorem bodyLength_skip (form : StringForm) (m : HoleMeasure) (k : Nat) (cs : List Char) :
    bodyLength form m k cs = (· + k) <$> bodyLength form m 0 (cs.drop k) := by
  induction cs generalizing k with
  | nil =>
    rw [List.drop_nil]
    rfl
  | cons c cs ih =>
    cases k with
    | zero =>
      rw [List.drop_zero]
      cases bodyLength form m 0 (c :: cs) <;> rfl
    | succ k =>
      rw [bodyLength, ih, List.drop_succ_cons]
      cases bodyLength form m 0 (cs.drop k) <;> rfl

/-- What is found behind `k` characters is found before them. -/
theorem Agrees.before (cs : List Char) (k j : Nat)
    (h : Agrees form μ m (pre ++ cs.take k) (cs.drop k)) (hj : j = byteLength (cs.take k)) :
    scanBody form μ (pre ++ cs) (byteLength pre + j) =
      .ok ((byteLength pre + ·) <$> inBytes cs ((· + k) <$> bodyLength form m 0 (cs.drop k))) := by
  rw [inBytes_add, ← h, List.append_assoc, List.take_append_drop, byteLength_append, hj]

/-- The first byte of a text is an ASCII character where its first character is. -/
theorem head_ascii {x : Char} (hx : x.utf8Size = 1) (cs : List Char) :
    (ofChars cs).head? = some x.toUInt8 ↔ cs.head? = some x := by
  have hprefix := isPrefixOf_ofChars [x] (by simpa using hx) cs
  have hsingle : ofChars [x] = [x.toUInt8] := by
    rw [ofChars_cons, encode_ascii hx]
    rfl
  rw [hsingle] at hprefix
  cases cs with
  | nil => exact ⟨nofun, nofun⟩
  | cons c cs =>
    cases hcs : ofChars (c :: cs) with
    | nil =>
      have hlen := length_ofChars (c :: cs)
      have := c.utf8Size_pos
      rw [hcs, byteLength, List.length_nil] at hlen
      omega
    | cons b bs =>
      rw [hcs] at hprefix
      simp only [List.isPrefixOf, Bool.and_true] at hprefix
      rw [List.head?_cons, List.head?_cons, Option.some.injEq, Option.some.injEq, eq_comm,
        ← beq_iff_eq, hprefix, beq_iff_eq]
      exact eq_comm

/-- The bytes of a text that begins with an ASCII character. -/
theorem drop_ascii (hc : c.utf8Size = 1) (pre cs : List Char) :
    (ofChars (pre ++ c :: cs)).drop (byteLength pre) = c.toUInt8 :: ofChars cs := by
  have hdrop := drop_ofChars pre (c :: cs) 0
  rw [Nat.add_zero, List.drop_zero, ofChars_cons, encode_ascii hc] at hdrop
  exact hdrop

theorem toUInt8_beq {x : Char} (hc : c.utf8Size = 1) (hx : x.utf8Size = 1) :
    (c.toUInt8 == x.toUInt8) = decide (c = x) := by
  rw [Bool.eq_iff_iff, beq_iff_eq, decide_eq_true_iff, toUInt8_inj hc hx]

/-- One step of the walk, at an ASCII character. -/
theorem scanBody_ascii (hc : c.utf8Size = 1) (pre cs : List Char) :
    scanBody form μ (pre ++ c :: cs) (byteLength pre) =
      if form.closer.isPrefixOf (c :: cs) then .ok (.ok (byteLength pre + byteLength form.closer))
      else if c = '\\' && form.hasEscapes then
        scanBody form μ (pre ++ c :: cs) (byteLength pre + 2)
      else if c = '$' && form.hasHoles && decide (cs.head? = some '{') then do
        let hole ← sliceFrom (byteLength pre + 2) (pre ++ c :: cs)
        match ← μ hole with
        | .ok n => scanBody form μ (pre ++ c :: cs) (byteLength pre + 2 + n)
        | .error fault => return .error fault
      else scanBody form μ (pre ++ c :: cs) (byteLength pre + 1) := by
  have hprefix := isPrefixOf_ofChars _ (closer_ascii form) (c :: cs)
  have hbrace : ((ofChars cs).head? == some '{'.toUInt8) = decide (cs.head? = some '{') := by
    rw [Bool.eq_iff_iff, decide_eq_true_iff, beq_iff_eq, head_ascii (by decide)]
  rw [ofChars_cons, encode_ascii hc, List.cons_append, List.nil_append] at hprefix
  rw [scanBody_step (drop_ascii hc pre cs), hprefix, hbrace, toUInt8_beq hc (by decide),
    toUInt8_beq hc (by decide)]

/-- A character that is not ASCII is passed over by bytes as by characters. -/
theorem agrees_outer {b : UInt8} {bs : List UInt8} (hc : String.utf8EncodeChar c = b :: bs)
    (hb : Outer b) (h : Agrees form μ m (pre ++ [c]) cs) : Agrees form μ m pre (c :: cs) := by
  have hne : ∀ x : Char, x.utf8Size = 1 → c ≠ x := by
    rintro x hx rfl
    rw [encode_ascii hx] at hc
    exact hb.ne hx (List.cons.inj hc).1
  have hsize : 1 < c.utf8Size := by
    have hpos := c.utf8Size_pos
    have hone : c.utf8Size ≠ 1 := fun hone => hne c hone rfl
    omega
  have hcloser : form.closer.isPrefixOf (c :: cs) = false := by
    rw [← isPrefixOf_ofChars _ (closer_ascii form), ofChars_cons, hc, List.cons_append]
    exact closer_not_outer form hb _
  have hinside := scanBody_inside form μ pre cs c (j := 0) (k := c.utf8Size) (by omega) (.inl hsize)
  have hafter := Agrees.before (c :: cs) 1 c.utf8Size h (by simp [byteLength])
  rw [Agrees, bodyLength_zero, hcloser, if_neg (by simp), if_neg (by simp [hne '\\' (by decide)]),
    if_neg (by simp [hne '$' (by decide)])]
  rw [Nat.add_zero] at hinside
  rw [hinside, hafter]
  rfl

theorem agrees_closer (hc : c.utf8Size = 1) (hcloser : form.closer.isPrefixOf (c :: cs) = true) :
    Agrees form μ m pre (c :: cs) := by
  have htake := List.prefix_iff_eq_take.1 (List.isPrefixOf_iff_prefix.1 hcloser)
  rw [Agrees, scanBody_ascii hc, if_pos hcloser, bodyLength_zero, if_pos hcloser]
  conv => lhs; rw [htake]
  rfl

/-- A backslash takes the character after it along, though only one byte of it is left out. -/
theorem agrees_escape (hcloser : ¬ form.closer.isPrefixOf ('\\' :: cs) = true)
    (he : form.hasEscapes = true)
    (h : ∀ e rest, cs = e :: rest → Agrees form μ m (pre ++ ['\\', e]) rest) :
    Agrees form μ m pre ('\\' :: cs) := by
  have hc : '\\'.utf8Size = 1 := by decide
  rw [Agrees, scanBody_ascii hc, if_neg hcloser, if_pos (by simp [he]), bodyLength_zero,
    if_neg hcloser, if_pos (by simp [he])]
  cases cs with
  | nil =>
    rw [scanBody_done (by simp [byteLength, hc])]
    rfl
  | cons e rest =>
    have hpos := e.utf8Size_pos
    have hinside := scanBody_inside form μ (pre ++ ['\\']) rest e (j := 1) (k := e.utf8Size - 1)
      (by omega) (by omega)
    have hafter := Agrees.before ('\\' :: e :: rest) 2 (1 + e.utf8Size) (h e rest rfl)
      (by simp [byteLength, hc])
    rw [List.append_assoc, List.singleton_append, byteLength_append] at hinside
    simp only [byteLength, hc, Nat.add_zero, Nat.add_assoc] at hinside hafter
    rw [hinside, hafter, bodyLength_skip form m 1]
    simp only [List.drop_succ_cons, List.drop_zero]
    cases bodyLength form m 0 rest <;> rfl

/-- A hole is stepped over. -/
theorem agrees_hole (hcloser : ¬ form.closer.isPrefixOf ('$' :: '{' :: cs) = true)
    (hf : form.hasHoles = true) (hμ : μ cs = .ok (inBytes cs (m cs)))
    (h : ∀ n, Agrees form μ m (pre ++ '$' :: '{' :: cs.take n) (cs.drop n)) :
    Agrees form μ m pre ('$' :: '{' :: cs) := by
  have hc : '$'.utf8Size = 1 := by decide
  have hbrace : '{'.utf8Size = 1 := by decide
  have hslice : sliceFrom (byteLength pre + 2) (pre ++ '$' :: '{' :: cs) = .ok cs := by
    have hsplit : pre ++ '$' :: '{' :: cs = (pre ++ ['$', '{']) ++ cs := by simp
    rw [hsplit]
    exact sliceFrom_append (by simp [byteLength, hc, hbrace])
  rw [Agrees, scanBody_ascii hc, if_neg hcloser, if_neg (by simp), if_pos (by simp [hf]), hslice,
    bodyLength_zero, if_neg hcloser, if_neg (by simp), if_pos (by simp [hf])]
  simp only [bind, Except.bind, hμ]
  cases m cs with
  | error fault => rfl
  | ok n =>
    have hafter := Agrees.before ('$' :: '{' :: cs) (n + 2) _ (h n) rfl
    simp only [List.take_succ_cons, List.drop_succ_cons, byteLength, hc, hbrace] at hafter
    have hskip := bodyLength_skip form m (n + 1) ('{' :: cs)
    rw [List.drop_succ_cons] at hskip
    have hpos : byteLength pre + 2 + byteLength (cs.take n) =
        byteLength pre + (1 + (1 + byteLength (cs.take n))) := by omega
    simp only [inBytes, Functor.map, Except.map] at hafter hskip ⊢
    rw [hpos, hafter, hskip]
    cases bodyLength form m 0 (cs.drop n) <;> rfl

/-- Any other ASCII character is passed over. -/
theorem agrees_plain (hc : c.utf8Size = 1) (hcloser : ¬ form.closer.isPrefixOf (c :: cs) = true)
    (he : ¬ (decide (c = '\\') && form.hasEscapes) = true)
    (hd : (decide (c = '$') && form.hasHoles) = true → cs.head? ≠ some '{')
    (h : Agrees form μ m (pre ++ [c]) cs) : Agrees form μ m pre (c :: cs) := by
  have hafter := Agrees.before (c :: cs) 1 1 h (by simp [byteLength, hc])
  rw [Agrees, scanBody_ascii hc, if_neg hcloser, if_neg he, if_neg,
    Lexeme.bodyLength_plain hcloser he hd]
  · exact hafter
  · rw [Bool.and_eq_true, decide_eq_true_iff]
    exact fun hboth => hd hboth.1 hboth.2

theorem scanBody_agrees (n : Nat) (hn : cs.length ≤ n) (hμ : Measures μ m bound)
    (hb : cs.length ≤ bound) (pre : List Char) : Agrees form μ m pre cs := by
  induction n generalizing pre cs with
  | zero =>
    obtain rfl := List.length_eq_zero_iff.1 (Nat.le_zero.1 hn)
    rw [Agrees, List.append_nil, scanBody_done (Nat.le_refl _)]
    rfl
  | succ n ih =>
    cases cs with
    | nil =>
      rw [Agrees, List.append_nil, scanBody_done (Nat.le_refl _)]
      rfl
    | cons c cs =>
      rw [List.length_cons] at hn hb
      rcases ascii_or_outer c with hc | ⟨b, bs, hencode, houter⟩
      · by_cases hcloser : form.closer.isPrefixOf (c :: cs) = true
        · exact agrees_closer hc hcloser
        by_cases hescape : (decide (c = '\\') && form.hasEscapes) = true
        · obtain ⟨hslash, he⟩ := (Bool.and_eq_true _ _).mp hescape
          obtain rfl : c = '\\' := by simpa using hslash
          refine agrees_escape hcloser he ?_
          rintro e rest rfl
          rw [List.length_cons] at hn hb
          exact ih (by omega) (by omega) _
        by_cases hhole : (decide (c = '$') && form.hasHoles) = true ∧ cs.head? = some '{'
        · obtain ⟨hdollar, hbrace⟩ := hhole
          obtain ⟨hc, hf⟩ := (Bool.and_eq_true _ _).mp hdollar
          obtain rfl : c = '$' := by simpa using hc
          obtain ⟨cs, rfl⟩ := List.head?_eq_some_iff.1 hbrace
          rw [List.length_cons] at hn hb
          have hlen : ∀ k, (cs.drop k).length ≤ cs.length := fun k => by
            rw [List.length_drop]
            omega
          exact agrees_hole hcloser hf (hμ cs (by omega)) fun k =>
            ih (by have := hlen k; omega) (by have := hlen k; omega) _
        · exact agrees_plain hc hcloser hescape (fun hd hbrace => hhole ⟨hd, hbrace⟩)
            (ih (by omega) (by omega) _)
      · exact agrees_outer hencode houter (ih (by omega) (by omega) _)

/-- The walk over the bytes of a text finds where a literal ends, and no slice on the way fails. -/
theorem scanBody_ok (hμ : Measures μ m bound) (hb : cs.length ≤ bound) :
    scanBody form μ cs 0 = .ok (inBytes cs (bodyLength form m 0 cs)) := by
  have h : Agrees form μ m [] cs := scanBody_agrees cs.length (Nat.le_refl _) hμ hb []
  rw [Agrees] at h
  simp only [List.nil_append, byteLength, Nat.zero_add] at h
  rw [h]
  cases inBytes cs (bodyLength form m 0 cs) <;> rfl

end Script.Bytes
