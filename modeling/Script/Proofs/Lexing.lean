import Script.Grammar.Cursor
import Script.Token.Pieces

/-!
Facts about lexed texts that do not depend on what their tokens are: which kinds a token can have,
and where the end token stands.
-/
namespace Script

theorem map_eq_ok {ε α β : Type} {f : α → β} {x : Except ε α} {b : β} :
    f <$> x = .ok b ↔ ∃ a, x = .ok a ∧ f a = b := by
  cases x <;> simp [Functor.map, Except.map]

/-- A failure of a mapped computation is a failure of the computation. -/
theorem map_eq_error {ε α β : Type} {f : α → β} {x : Except ε α} {e : ε} :
    f <$> x = .error e ↔ x = .error e := by
  cases x <;> simp [Functor.map, Except.map]

theorem exists_of_isOk {ε α : Type} {x : Except ε α} (h : x.isOk = true) : ∃ a, x = .ok a := by
  cases x with
  | ok a => exact ⟨a, rfl⟩
  | error e => cases h

theorem eq_ok_of_toOption {ε α : Type} {x : Except ε α} {a : α} (h : x.toOption = some a) :
    x = .ok a := by
  cases x with
  | ok b => exact congrArg Except.ok (Option.some.inj h)
  | error e => cases h

/-- Why a computation failed, if it did. -/
def failure? {ε α : Type} : Except ε α → Option ε
  | .ok _ => none
  | .error e => some e

theorem eq_error_of_failure? {ε α : Type} {x : Except ε α} {e : ε} (h : failure? x = some e) :
    x = .error e := by
  cases x with
  | ok a => cases h
  | error f => exact congrArg Except.error (Option.some.inj h)

namespace Lexeme

theorem symbol?_kind {cs : List Char} {k : TokenKind} {n : Nat} (h : symbol? cs = some (k, n)) :
    k.isString = false ∧ k ≠ .ident ∧ k ≠ .endOfText ∧ ∀ kind, k ≠ .number kind := by
  unfold symbol? at h
  split at h <;> simp only [Option.some.injEq, Prod.mk.injEq, reduceCtorEq] at h <;>
    obtain ⟨rfl, -⟩ := h <;> simp [TokenKind.isString]

/-- A text at which `scan` reads a token, by the rule that reads it. -/
inductive Reads (m : HoleMeasure) (c : Char) (cs : List Char) : TokenKind → Nat → Prop
  | number {kind : NumberKind} (hb : Numeral.begins (c :: cs) = true)
      (hk : Numeral.classify (Numeral.run (c :: cs)) = some kind) :
      Reads m c cs (.number kind) ((Numeral.run (c :: cs)).length - 1)
  | string {form : StringForm} {n : Nat} (hb : Numeral.begins (c :: cs) = false)
      (ho : StringForm.opening? (c :: cs) = some form)
      (hl : bodyLength form m 0 ((c :: cs).drop form.opener.length) = .ok n) :
      Reads m c cs (stringKind form) (form.opener.length - 1 + n)
  | ident (ho : StringForm.opening? (c :: cs) = none) (hc : Chars.isIdentStart c = true) :
      Reads m c cs .ident (cs.takeWhile Chars.isIdentPart).length
  | symbol {kind : TokenKind} {n : Nat} (hb : Numeral.begins (c :: cs) = false)
      (ho : StringForm.opening? (c :: cs) = none) (hc : Chars.isIdentStart c = false)
      (hn : ∀ d ∈ cs.head?, c = '/' → d ≠ '/' ∧ d ≠ '*')
      (hs : symbol? (c :: cs) = some (kind, n)) : Reads m c cs kind (n - 1)

theorem reads_of_scan {m : HoleMeasure} {c : Char} {cs : List Char} {k : TokenKind} {n : Nat}
    (h : scan m c cs = .ok (.token k, n)) : Reads m c cs k n := by
  unfold scan at h
  split at h
  · simp at h
  split at h
  · rename_i hb
    dsimp only at h
    split at h
    · rename_i kind hk
      simp only [Except.ok.injEq, Prod.mk.injEq, Lexeme.token.injEq] at h
      obtain ⟨rfl, rfl⟩ := h
      exact .number hb hk
    · cases h
  rename_i hb
  have hb : Numeral.begins (c :: cs) = false := by simpa using hb
  split at h
  · rename_i form ho
    split at h
    · rename_i n hl
      simp only [Except.ok.injEq, Prod.mk.injEq, Lexeme.token.injEq] at h
      obtain ⟨rfl, rfl⟩ := h
      exact .string hb ho hl
    · cases h
  rename_i ho
  split at h
  · rename_i hc
    simp only [Except.ok.injEq, Prod.mk.injEq, Lexeme.token.injEq] at h
    obtain ⟨rfl, rfl⟩ := h
    exact .ident ho hc
  rename_i hc
  have hc : Chars.isIdentStart c = false := by simpa using hc
  split at h
  · simp at h
  · split at h <;> simp at h
  · rename_i hline hblock
    split at h
    · rename_i kind n hs
      simp only [Except.ok.injEq, Prod.mk.injEq, Lexeme.token.injEq] at h
      obtain ⟨rfl, rfl⟩ := h
      refine .symbol hb ho hc (fun d hd hslash => ?_) hs
      cases cs with
      | nil => cases hd
      | cons e cs =>
        obtain rfl := Option.some.inj hd
        exact ⟨fun he => hline cs hslash (by rw [he]), fun he => hblock cs hslash (by rw [he])⟩
    · cases h

theorem Reads.ne_end {m : HoleMeasure} {c : Char} {cs : List Char} {k : TokenKind} {n : Nat}
    (h : Reads m c cs k n) : k ≠ .endOfText := by
  cases h with
  | number => simp
  | string => rename_i form _ _ _ _; cases form <;> simp [stringKind]
  | ident => simp
  | symbol _ _ _ _ hs => exact (symbol?_kind hs).2.2.1

end Lexeme

namespace Lexed

theorem scanFrom_last {skip pos : Nat} {newline : Bool} {cs : List Char} {t : Token} :
    (scanFrom skip pos newline cs).last = .ok t → t.kind = .endOfText := by
  induction cs generalizing skip pos newline with
  | nil =>
    intro h
    cases h
    rfl
  | cons c cs ih =>
    intro h
    cases skip with
    | succ k => exact ih h
    | zero =>
      unfold scanFrom at h
      dsimp only at h
      split at h
      · cases h
      · split at h
        · exact ih h
        · exact ih h

theorem scanFrom_kind {skip pos : Nat} {newline : Bool} {cs : List Char} {t : Token} :
    t ∈ (scanFrom skip pos newline cs).tokens → t.kind ≠ .endOfText := by
  induction cs generalizing skip pos newline with
  | nil => intro h; simp [scanFrom] at h
  | cons c cs ih =>
    intro h
    cases skip with
    | succ k => exact ih h
    | zero =>
      unfold scanFrom at h
      dsimp only at h
      split at h
      · simp at h
      · rename_i lexeme n hscan
        split at h
        · exact ih h
        · rename_i kind
          rcases List.mem_cons.1 h with rfl | h
          · exact (Lexeme.reads_of_scan hscan).ne_end
          · exact ih h

/-- The tokens of a text take no more bytes than the text, and none of them is empty. -/
theorem scanFrom_size (skip pos : Nat) (newline : Bool) (cs : List Char) :
    Token.weight (scanFrom skip pos newline cs).tokens ≤ Chars.byteLength (cs.drop skip) ∧
      ∀ t ∈ (scanFrom skip pos newline cs).tokens, 0 < t.text.utf8ByteSize := by
  induction cs generalizing skip pos newline with
  | nil => simp [scanFrom, Token.weight]
  | cons c cs ih =>
    cases skip with
    | succ k => exact ih k pos newline
    | zero =>
      have hc := c.utf8Size_pos
      have hdrop : ∀ n, Chars.byteLength (cs.take n) + Chars.byteLength (cs.drop n) =
          Chars.byteLength cs := by
        intro n
        rw [← Chars.byteLength_append, List.take_append_drop]
      unfold scanFrom
      dsimp only
      split
      · simp [Token.weight]
      · rename_i lexeme n hscan
        split
        · obtain ⟨hsum, hpos⟩ := ih n (pos + Chars.byteLength (c :: cs.take n))
            (newline || (c :: cs.take n).contains '\n')
          refine ⟨Nat.le_trans hsum ?_, hpos⟩
          have := hdrop n
          simp only [List.drop_zero, Chars.byteLength]
          omega
        · obtain ⟨hsum, hpos⟩ := ih n (pos + Chars.byteLength (c :: cs.take n)) false
          have := hdrop n
          refine ⟨?_, ?_⟩
          · simp only [Token.weight, Chars.utf8ByteSize_ofList, List.drop_zero,
              Chars.byteLength] at hsum ⊢
            omega
          · intro t ht
            rcases List.mem_cons.1 ht with rfl | ht
            · simp only [Chars.utf8ByteSize_ofList, Chars.byteLength]
              omega
            · exact hpos t ht

variable {base : Nat} {text : String} {ts : List Token} {last : Token}

theorem tokens_size (h : ofString base text = ⟨ts, .ok last⟩) :
    Token.weight ts ≤ text.utf8ByteSize ∧
      ∀ t ∈ ts, 0 < t.text.utf8ByteSize := by
  have hsize := scanFrom_size 0 base false text.toList
  rw [List.drop_zero, ← Chars.utf8ByteSize_ofList, String.ofList_toList] at hsize
  have htokens : (scanFrom 0 base false text.toList).tokens = ts := congrArg Lexed.tokens h
  rwa [htokens] at hsize

theorem last_kind (h : ofString base text = ⟨ts, .ok last⟩) : last.kind = .endOfText := by
  have hl : (ofString base text).last = .ok last := by rw [h]
  exact scanFrom_last hl

theorem tokens_kind (h : ofString base text = ⟨ts, .ok last⟩) :
    ∀ t ∈ ts, t.kind ≠ .endOfText := by
  intro t ht
  have hmem : t ∈ (ofString base text).tokens := by rw [h]; exact ht
  exact scanFrom_kind hmem

end Lexed

namespace Chars

theorem byteLength_toList (s : String) : byteLength s.toList = s.utf8ByteSize := by
  rw [← utf8ByteSize_ofList, String.ofList_toList]

theorem byteLength_take_le (n : Nat) (cs : List Char) :
    byteLength (cs.take n) ≤ byteLength cs := by
  have h := byteLength_append (cs.take n) (cs.drop n)
  rw [List.take_append_drop] at h
  omega

theorem byteLength_drop_le (n : Nat) (cs : List Char) :
    byteLength (cs.drop n) ≤ byteLength cs := by
  have h := byteLength_append (cs.take n) (cs.drop n)
  rw [List.take_append_drop] at h
  omega

end Chars

theorem RawHole.read_size {dollar n : Nat} {cs : List Char} {h : RawHole}
    (hr : RawHole.read dollar cs = .ok (h, n)) :
    h.text.utf8ByteSize ≤ Chars.byteLength cs := by
  unfold RawHole.read at hr
  split at hr
  · rename_i body
    split at hr
    · rename_i m _
      obtain ⟨rfl, -⟩ := Prod.mk.inj (Except.ok.inj hr)
      have hle := Chars.byteLength_take_le (m - 1) body
      simp only [Chars.utf8ByteSize_ofList, Chars.byteLength]
      omega
    · cases hr
  · split at hr
    · cases hr
    · obtain ⟨rfl, -⟩ := Prod.mk.inj (Except.ok.inj hr)
      rw [Chars.utf8ByteSize_ofList]
      exact Chars.byteLength_take_le _ cs

namespace Piece

theorem atoms_size {form : StringForm} {skip pos : Nat} {cs : List Char} {as : List Atom}
    {h : RawHole} (ha : atoms form skip pos cs = .ok as) (hh : .hole h ∈ as) :
    h.text.utf8ByteSize ≤ Chars.byteLength cs := by
  fun_induction atoms form skip pos cs generalizing as with
  | case1 =>
    cases ha
    simp at hh
  | case2 _ c cs k ih =>
    have := ih ha hh
    simp only [Chars.byteLength]
    omega
  | case3 => cases ha
  | case4 _ c _ e rest d _ ih =>
    obtain ⟨as, has, rfl⟩ := map_eq_ok.1 ha
    have := ih has (by simpa using hh)
    simp only [Chars.byteLength]
    omega
  | case5 => cases ha
  | case6 => cases ha
  | case7 _ c cs _ _ x n hread ih =>
    obtain ⟨as, has, rfl⟩ := map_eq_ok.1 ha
    simp only [Chars.byteLength]
    rcases List.mem_cons.1 hh with hx | hh
    · obtain rfl := Atom.hole.inj hx
      have := RawHole.read_size hread
      omega
    · have := ih has hh
      omega
  | case8 _ c cs _ _ ih =>
    obtain ⟨as, has, rfl⟩ := map_eq_ok.1 ha
    have := ih has (by simpa using hh)
    simp only [Chars.byteLength]
    omega

theorem hole_of_join {h : RawHole} {as : List Atom} :
    ∀ {run : List Char}, .hole h ∈ join run as → .hole h ∈ as := by
  have hrun : ∀ run : List Char, .hole h ∉ ofRun run := by
    intro run
    unfold ofRun
    split <;> simp
  induction as with
  | nil => exact fun hh => absurd hh (hrun _)
  | cons a as ih =>
    intro run hh
    cases a with
    | char c => exact List.mem_cons_of_mem _ (ih hh)
    | hole x =>
      rcases List.mem_append.1 hh with hh | hh
      · exact absurd hh (hrun _)
      · rcases List.mem_cons.1 hh with hx | hh
        · obtain rfl := Piece.hole.inj hx
          simp
        · exact List.mem_cons_of_mem _ (ih hh)

end Piece

theorem StringForm.body_size (form : StringForm) {cs : List Char} (hcs : cs ≠ []) :
    Chars.byteLength (form.body cs) < Chars.byteLength cs := by
  have hopener : ∃ n, form.opener.length = n + 1 := by cases form <;> exact ⟨_, rfl⟩
  obtain ⟨n, hn⟩ := hopener
  rw [StringForm.body, hn]
  have htake := Chars.byteLength_take_le (cs.length - form.closer.length) cs
  cases ht : cs.take (cs.length - form.closer.length) with
  | nil =>
    cases cs with
    | nil => exact absurd rfl hcs
    | cons c cs =>
      have := c.utf8Size_pos
      simp only [List.drop_nil, Chars.byteLength]
      omega
  | cons d ds =>
    have hdrop := Chars.byteLength_drop_le n ds
    have := d.utf8Size_pos
    rw [ht] at htake
    simp only [Chars.byteLength, List.drop_succ_cons] at htake ⊢
    omega

/-- A hole is shorter than its literal. -/
theorem decode_size {literal : String} {start : Nat} {d : Decoded} {h : RawHole}
    (hd : decode literal start = .ok d) (hh : .hole h ∈ d.pieces) :
    h.text.utf8ByteSize < literal.utf8ByteSize := by
  unfold decode at hd
  dsimp only at hd
  split at hd
  · rename_i as ha
    obtain rfl := Except.ok.inj hd
    have hle := Piece.atoms_size ha (Piece.hole_of_join hh)
    by_cases hl : literal.toList = []
    · rw [hl] at ha
      simp only [StringForm.body, List.take_nil, List.drop_nil, Piece.atoms] at ha
      cases ha
      simp [Piece.join, Piece.ofRun] at hh
    · have hlt := StringForm.body_size ((StringForm.opening? literal.toList).getD .double) hl
      rw [← Chars.utf8ByteSize_ofList literal.toList, String.ofList_toList] at hlt
      omega
  · cases hd

theorem Cursor.start_rest (ts : List Token) (last : Token) :
    (Cursor.start ts last).rest = ts ++ [last] := by
  cases ts <;> rfl

end Script
