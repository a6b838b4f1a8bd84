import Script.Proofs.Abreast.Places
import Script.Proofs.Lexing.Broken
import Script.Proofs.Sound.Statement

/-!
Cursors side by side. Two token lists agree up to the end of the first one, where the second one
ends as well or goes on with more tokens. Two cursors are near each other as long as nothing told
them apart: they stand on like tokens, and the first has not come to an end that the second does not
share.
-/
namespace Script

/-- The token is a keyword at which no expression begins. -/
def Token.Reserved (t : Token) : Prop :=
  ∃ word, t.keyword? = some word ∧ Parser.literalWord? word = none ∧ word.isSoft = false

/-- A token list that is read, and what another one that agrees with it has in place of its end
token: nothing if that one ends alike, and else the tokens with which it goes on. -/
structure Seam where
  places : Places
  tokens : List Token
  last : Token
  more : List Token
  last_kind : last.kind = .endOfText
  more_kind : ∀ t ∈ more.getLast?, t.kind = .endOfText
  tokens_kind : ∀ t ∈ tokens, t.kind ≠ .endOfText
  tokens_size : ∀ t ∈ tokens, 0 < t.text.utf8ByteSize
  tokens_sorted : Token.Sorted tokens

/-- The tokens of a text, and what another list has in place of their end token. -/
def Lexed.seam (P : Places) (base : Nat) (text : String) (last : Token)
    (hl : last.kind = .endOfText) (more : List Token)
    (hm : ∀ t ∈ more.getLast?, t.kind = .endOfText) : Seam where
  places := P
  tokens := (Lexed.ofString base text).tokens
  last := last
  more := more
  last_kind := hl
  more_kind := hm
  tokens_kind _ ht := Lexed.scanFrom_kind ht
  tokens_size := (Lexed.scanFrom_size 0 base false text.toList).2
  tokens_sorted := Lexed.tokens_sorted base text

namespace Seam

abbrev Like {α : Type} [Placed α] (σ : Seam) (a b : α) : Prop := σ.places.Like a b

/-- The cursor on the first of the tokens. -/
def start (σ : Seam) : Cursor := Cursor.start σ.tokens σ.last

/-- A cursor that is reached from the start. -/
def Reaches (σ : Seam) (c : Cursor) : Prop := ∃ ts, σ.start.Takes ts c

/-- The tokens that are left of both lists. -/
inductive Beside (σ : Seam) : List Token → List Token → Prop
  | last {u : Token} (h : σ.more = []) (hu : σ.Like σ.last u) : Beside σ [σ.last] [u]
  | cut (h : σ.more ≠ []) : Beside σ [σ.last] σ.more
  | cons {t u : Token} {ts us : List Token} (ht : t ∈ σ.tokens) (hu : σ.Like t u)
      (h : Beside σ ts us) : Beside σ (t :: ts) (u :: us)

/-- What stops at a position stops with the tokens, or right before a last point that a segment
follows where the tokens go on. -/
def StopsLast (tokens more : List Token) (stop : Nat) : Prop :=
  ∃ ts t, stop = t.stop ∧ (tokens = ts ++ [t] ∨
    ∃ dot, tokens = ts ++ [t, dot] ∧ dot.kind = .dot ∧ Continues .ident more)

/-- The last token is the variable of a loop where the tokens go on: it stands behind a `for`, and a
comma or an `in` comes next. -/
structure LoopVariable (tokens more : List Token) (t : Token) : Prop where
  behind : ∃ ts loop, tokens = ts ++ [loop, t] ∧ loop.keyword? = some .forWord
  free : Parser.isBindingWord t.keyword? = false
  next : ∃ u ∈ more.head?, u.kind = .comma ∨ u.keyword? = some .inWord

/-- The tokens go on with what is left of a name, if anything is, and then with a colon. -/
def ToColon (more : List Token) : Prop :=
  ∃ names colon rest, more = names ++ colon :: rest ∧ colon.kind = .colon ∧
    ∀ t ∈ names, t.kind = .ident ∨ t.kind = .dot

/-- The errors that only the end of a list provokes although they lie before it, where the tokens go
on and are read to their end. They come from looking one token ahead: at a point that a segment
follows, at a keyword that turns out to be the variable of a loop, and at an entry of a node that
turns out to be the key of a pair. -/
inductive Provoked (tokens more : List Token) : ParseError → Prop
  | point {ts : List Token} {dot : Token} {expected : Expected} (ht : tokens = ts ++ [dot])
      (hd : dot.kind = .dot) (hj : Continues .ident more) :
      Provoked tokens more ⟨.unexpectedToken expected dot.describe, dot.span⟩
  | word {t : Token} (ht : LoopVariable tokens more t) (hr : t.Reserved) :
      Provoked tokens more ⟨.unexpectedToken .expression t.describe, t.span⟩
  | entry {span : Span} (hs : StopsLast tokens more span.stop) (hc : ToColon more) :
      Provoked tokens more ⟨.invalidNodeEntry, span⟩

/-- The errors that stand at the end of the list or are provoked by it, where the other list goes
on. -/
structure Lost (σ : Seam) (e : ParseError) : Prop where
  cut : σ.more ≠ []
  lost : e.span = σ.last.span ∨ Provoked σ.tokens σ.more e

/-- The errors whose spans stop where the list does, where the other list goes on. -/
structure Late (σ : Seam) (e : ParseError) : Prop where
  cut : σ.more ≠ []
  stops : StopsLast σ.tokens σ.more e.span.stop

/-- The cursor has come to where the other list goes on otherwise: to the end of its own, or to a
last point which a segment follows in the other list. -/
structure Away (σ : Seam) (n : Nat) (c : Cursor) : Prop where
  cut : σ.more ≠ []
  reaches : σ.Reaches c
  rest : c.rest = [σ.last] ∨
    (Parser.continuesWith .dot c.here = true ∧ c.rest = [c.here, σ.last] ∧ Continues .ident σ.more)
  light : c.weight < n

/-- The cursor stands on the last token before the end of a list, where the other list goes on. -/
structure AtLast (σ : Seam) (n : Nat) (c : Cursor) : Prop where
  cut : σ.more ≠ []
  reaches : σ.Reaches c
  rest : c.rest = [c.here, σ.last]
  light : c.weight < n

/-- The cursors stand on like tokens of both lists, with less than `n` bytes left in the first. -/
structure Near (σ : Seam) (n : Nat) (c d : Cursor) : Prop where
  reaches : σ.Reaches c
  beside : σ.Beside c.rest d.rest
  shared : c.here.kind = .endOfText → σ.more = []
  lastStop : σ.places.left c.lastStop = σ.places.right d.lastStop
  light : c.weight < n

variable {σ : Seam} {n m : Nat} {c d : Cursor}

theorem start_rest (σ : Seam) : σ.start.rest = σ.tokens ++ [σ.last] :=
  Cursor.start_rest σ.tokens σ.last

theorem Reaches.suffix (h : σ.Reaches c) : ∃ ts, σ.tokens ++ [σ.last] = ts ++ c.rest := by
  obtain ⟨ts, hk⟩ := h
  exact ⟨ts, by rw [← start_rest, hk.rest]⟩

theorem Reaches.ended (h : σ.Reaches c) : c.Ended := by
  obtain ⟨ts, hk⟩ := h
  refine Cursor.Ended.of_takes ?_ hk
  simp [Cursor.Ended, start_rest, σ.last_kind]

theorem Reaches.trans {ts : List Token} (h : σ.Reaches c) (hk : c.Takes ts d) : σ.Reaches d := by
  obtain ⟨us, hk'⟩ := h
  exact ⟨_, hk'.trans hk⟩

/-- Of two cursors on the same list, the one with fewer bytes ahead has fewer tokens ahead. -/
theorem Reaches.length_lt (hc : σ.Reaches c) (hd : σ.Reaches d) (h : d.weight < c.weight) :
    d.rest.length < c.rest.length := by
  obtain ⟨ts, hts⟩ := hc.suffix
  obtain ⟨us, hus⟩ := hd.suffix
  rcases List.append_eq_append_iff.1 (hts.symm.trans hus) with ⟨vs, -, hrest⟩ | ⟨vs, -, hrest⟩
  · cases vs with
    | nil =>
      rw [List.nil_append] at hrest
      simp [Cursor.weight, hrest] at h
    | cons v vs =>
      rw [hrest, List.length_append, List.length_cons]
      omega
  · simp only [Cursor.weight, hrest, Token.weight_append] at h
    omega

theorem Beside.length {ts us : List Token} (h : σ.Beside ts us) :
    us.length + 1 = ts.length + max 1 σ.more.length := by
  induction h with
  | last h hu => simp [h]
  | cut h =>
    have := List.length_pos_iff.2 h
    simp only [List.length_singleton]
    omega
  | cons ht hu h ih =>
    simp only [List.length_cons]
    omega

/-- Only at the end of its list does a cursor stand on an end token. -/
theorem Reaches.rest_of_end (h : σ.Reaches c) (hk : c.here.kind = .endOfText) :
    c.rest = [σ.last] := by
  obtain ⟨ts, hts⟩ := h.suffix
  rcases List.append_eq_append_iff.1 hts with ⟨vs, -, hvs⟩ | ⟨vs, htokens, hvs⟩
  · cases vs with
    | nil => exact hvs.symm
    | cons v vs => simp [Cursor.rest] at hvs
  · cases vs with
    | nil => exact hvs
    | cons v vs =>
      obtain ⟨rfl, -⟩ := List.cons.inj hvs
      exact absurd hk (σ.tokens_kind _ (by simp [htokens]))

theorem Near.mono (h : σ.Near n c d) (hnm : n ≤ m) : σ.Near m c d :=
  ⟨h.reaches, h.beside, h.shared, h.lastStop, Nat.lt_of_lt_of_le h.light hnm⟩

theorem Away.mono (h : σ.Away n c) (hnm : n ≤ m) : σ.Away m c :=
  ⟨h.cut, h.reaches, h.rest, Nat.lt_of_lt_of_le h.light hnm⟩

theorem Beside.here (h : σ.Beside c.rest d.rest) (hs : c.here.kind = .endOfText → σ.more = []) :
    σ.Like c.here d.here := by
  rw [Cursor.rest, Cursor.rest] at h
  generalize hts : c.here :: c.ahead = ts at h
  generalize hus : d.here :: d.ahead = us at h
  cases h with
  | last hm hu =>
    obtain ⟨rfl, -⟩ := List.cons.inj hus
    exact (List.cons.inj hts).1 ▸ hu
  | cut hm =>
    have hhere : c.here = σ.last := (List.cons.inj hts).1
    exact absurd (hs (hhere ▸ σ.last_kind)) hm
  | cons ht hu hb =>
    obtain ⟨rfl, -⟩ := List.cons.inj hts
    obtain ⟨rfl, -⟩ := List.cons.inj hus
    exact hu

/-- The cursors stand on like tokens. -/
theorem Near.like (h : σ.Near n c d) : σ.Like c.here d.here := h.beside.here h.shared

theorem Near.here_mem (h : σ.Near n c d) (hk : c.here.kind ≠ .endOfText) :
    c.here ∈ σ.tokens ∧ σ.Beside c.ahead d.ahead := by
  have hb := h.beside
  rw [Cursor.rest, Cursor.rest] at hb
  generalize hts : c.here :: c.ahead = ts at hb
  generalize hus : d.here :: d.ahead = us at hb
  cases hb with
  | last => exact absurd ((List.cons.inj hts).1 ▸ σ.last_kind) hk
  | cut => exact absurd ((List.cons.inj hts).1 ▸ σ.last_kind) hk
  | cons ht hu hb =>
    obtain ⟨rfl, rfl⟩ := List.cons.inj hts
    obtain ⟨rfl, rfl⟩ := List.cons.inj hus
    exact ⟨ht, hb⟩

theorem Near.taken (h : σ.Near n c d) (hk : c.here.kind ≠ .endOfText) :
    c.Takes [c.here] c.advance ∧ d.Takes [d.here] d.advance := by
  have hc := h.reaches.ended.ahead_ne_nil hk
  refine ⟨Cursor.takes_advance hc, Cursor.takes_advance ?_⟩
  intro hd
  have hlength := (h.here_mem hk).2.length
  have hpos := List.length_pos_iff.2 hc
  rw [hd, List.length_nil] at hlength
  omega

/-- One token further the cursors are still near each other, unless the first list ends there and
the second one goes on. -/
theorem Near.advance (h : σ.Near (n + 1) c d) (hk : c.here.kind ≠ .endOfText) :
    σ.Near n c.advance d.advance ∨ c.advance.rest = [σ.last] ∧ σ.Away n c.advance := by
  obtain ⟨hmem, hb⟩ := h.here_mem hk
  obtain ⟨kc, kd⟩ := h.taken hk
  have hreach := h.reaches.trans kc
  have hlight : c.advance.weight < n := by
    have hw := h.light
    have hsize := σ.tokens_size _ hmem
    rw [Cursor.weight, kc.rest, Token.weight_append, Token.weight, Token.weight] at hw
    rw [Cursor.weight]
    omega
  have hstop : σ.places.left c.advance.lastStop = σ.places.right d.advance.lastStop := by
    have hc := kc.lastStop_eq (by simp)
    have hd := kd.lastStop_eq (by simp)
    simp only [List.getLast?_singleton, Option.map_some, Option.some.injEq] at hc hd
    rw [hc, hd]
    exact h.like.stop
  by_cases hcut : c.advance.here.kind = .endOfText ∧ σ.more ≠ []
  · have hrest := hreach.rest_of_end hcut.1
    exact .inr ⟨hrest, hcut.2, hreach, .inl hrest, hlight⟩
  · refine .inl ⟨hreach, ?_, ?_, hstop, hlight⟩
    · rw [kc.rest_eq rfl, kd.rest_eq rfl]
      exact hb
    · intro hend
      by_cases hm : σ.more = []
      · exact hm
      · exact absurd ⟨hend, hm⟩ hcut

theorem Near.ahead_of_end (h : σ.Near n c d) (hk : c.here.kind = .endOfText) :
    c.ahead = [] ∧ d.ahead = [] := by
  have hc := h.reaches.rest_of_end hk
  have hlength := h.beside.length
  rw [hc, h.shared hk] at hlength
  simp only [Cursor.rest, List.length_cons, List.length_nil] at hlength
  exact ⟨(Cursor.rest_eq_cons hc).2, List.eq_nil_of_length_eq_zero (by omega)⟩

theorem Away.advance (h : σ.Away n c) : c.advance.rest = [σ.last] ∧ σ.Away n c.advance := by
  rcases h.rest with hrest | ⟨-, hrest, -⟩
  · have hstay : c.advance = c := by rw [Cursor.advance, (Cursor.rest_eq_cons hrest).2]
    rw [hstay]
    exact ⟨hrest, h⟩
  · have k := Cursor.takes_of_rest hrest (by simp)
    have hrest' := k.rest_eq hrest
    refine ⟨hrest', h.cut, h.reaches.trans k, .inl hrest', ?_⟩
    have hw := h.light
    rw [Cursor.weight, k.rest, Token.weight_append] at hw
    rw [Cursor.weight]
    omega

/-- The tokens up to a cursor and those from there to the end make up the list. -/
theorem tokens_of_takes {ts us : List Token} (hk : σ.start.Takes ts c)
    (hrest : c.rest = us ++ [σ.last]) : σ.tokens = ts ++ us := by
  have happend : σ.tokens ++ [σ.last] = (ts ++ us) ++ [σ.last] := by
    rw [← start_rest, hk.rest, hrest, List.append_assoc]
  exact List.append_cancel_right happend

theorem Reaches.tokens_eq {us : List Token} (h : σ.Reaches c) (hrest : c.rest = us ++ [σ.last]) :
    ∃ ts, σ.tokens = ts ++ us := by
  obtain ⟨ts, hk⟩ := h
  exact ⟨ts, tokens_of_takes hk hrest⟩

theorem AtLast.tokens_eq (h : σ.AtLast n c) : ∃ ts, σ.tokens = ts ++ [c.here] :=
  h.reaches.tokens_eq h.rest

theorem AtLast.kind (h : σ.AtLast n c) : c.here.kind ≠ .endOfText := by
  obtain ⟨ts, hts⟩ := h.tokens_eq
  exact σ.tokens_kind _ (by simp [hts])

theorem AtLast.advance (h : σ.AtLast (n + 1) c) :
    c.advance.rest = [σ.last] ∧ σ.Away n c.advance := by
  obtain ⟨ts, hts⟩ := h.tokens_eq
  have hsize := σ.tokens_size c.here (by simp [hts])
  have k := h.reaches.ended.takes h.kind
  have hrest := k.rest_eq h.rest
  refine ⟨hrest, h.cut, h.reaches.trans k, .inl hrest, ?_⟩
  have hw := h.light
  rw [Cursor.weight, k.rest, Token.weight_append, Token.weight, Token.weight] at hw
  rw [Cursor.weight]
  omega

theorem AtLast.past (h : σ.AtLast n c) : σ.Away n c.advance := by
  cases n with
  | zero => exact absurd h.light (Nat.not_lt_zero _)
  | succ n => exact h.advance.2.mono (Nat.le_succ n)

theorem AtLast.mono (h : σ.AtLast n c) (hnm : n ≤ m) : σ.AtLast m c :=
  ⟨h.cut, h.reaches, h.rest, Nat.lt_of_lt_of_le h.light hnm⟩

theorem AtLast.next (h : σ.AtLast n c) : c.next? = some σ.last := Cursor.next?_eq h.rest

theorem Away.atLast (h : σ.Away n c) (hk : c.here.kind ≠ .endOfText) : σ.AtLast n c := by
  rcases h.rest with hrest | ⟨-, hrest, -⟩
  · exact absurd ((Cursor.rest_eq_cons hrest).1 ▸ σ.last_kind) hk
  · exact ⟨h.cut, h.reaches, hrest, h.light⟩

theorem Away.kind (h : σ.Away n c) : c.here.kind = .endOfText ∨ c.here.kind = .dot := by
  rcases h.rest with hrest | ⟨hdot, -, -⟩
  · exact .inl ((Cursor.rest_eq_cons hrest).1 ▸ σ.last_kind)
  · exact .inr (Parser.continuesWith_kind hdot)

/-- The tokens after those at the cursors: like each other, or the end of the first list alone. -/
theorem Near.next (h : σ.Near n c d) :
    c.next? = none ∧ d.next? = none ∨
      (∃ t u, c.next? = some t ∧ d.next? = some u ∧ σ.Like t u) ∨
      σ.AtLast n c ∧ d.ahead = σ.more := by
  by_cases hk : c.here.kind = .endOfText
  · obtain ⟨hc, hd⟩ := h.ahead_of_end hk
    exact .inl ⟨by rw [Cursor.next?, hc]; rfl, by rw [Cursor.next?, hd]; rfl⟩
  · have hb := (h.here_mem hk).2
    rw [Cursor.next?, Cursor.next?]
    generalize hts : c.ahead = ts at hb
    generalize hus : d.ahead = us at hb
    cases hb with
    | last hm hu => exact .inr (.inl ⟨_, _, rfl, rfl, hu⟩)
    | cut hm => exact .inr (.inr ⟨⟨hm, h.reaches, by rw [Cursor.rest, hts], h.light⟩, rfl⟩)
    | cons ht hu hb => exact .inr (.inl ⟨_, _, rfl, rfl, hu⟩)

/-- What is asked of the next token has the same answer on both sides, unless the first list ends
there. -/
theorem Near.next_map (h : σ.Near n c d) (test : Token → Bool)
    (ht : ∀ {t u}, σ.Like t u → test t = test u) :
    (c.next?.map test).getD false = (d.next?.map test).getD false ∨
      σ.AtLast n c ∧ d.ahead = σ.more := by
  rcases h.next with ⟨hc, hd⟩ | ⟨t, u, hc, hd, htu⟩ | hcut
  · exact .inl (by rw [hc, hd])
  · exact .inl (by simp [hc, hd, ht htu])
  · exact .inr hcut

/-- Where the first list ends after the token at the cursor, the other one goes on. -/
theorem Near.ahead_of_atLast (h : σ.Near n c d) (hlast : σ.AtLast m c) : d.ahead = σ.more := by
  have hb := (h.here_mem hlast.kind).2
  rw [(Cursor.rest_eq_cons hlast.rest).2] at hb
  generalize hts : [σ.last] = ts at hb
  generalize hus : d.ahead = us at hb
  cases hb with
  | last hm => exact absurd hm hlast.cut
  | cut => rfl
  | cons ht =>
    obtain ⟨rfl, -⟩ := List.cons.inj hts
    exact absurd σ.last_kind (σ.tokens_kind _ ht)

theorem Away.next (h : σ.Away n c) : c.next? = none ∨ c.next? = some σ.last := by
  rcases h.rest with hrest | ⟨-, hrest, -⟩
  · exact .inl (Cursor.next?_eq hrest)
  · exact .inr (Cursor.next?_eq hrest)

theorem Away.not_next (h : σ.Away n c) {test : Token → Bool} (ht : test σ.last = false) :
    (c.next?.map test).getD false = false := by
  rcases h.next with hnext | hnext <;> simp [hnext, ht]

theorem AtLast.not_next (h : σ.AtLast n c) {test : Token → Bool} (ht : test σ.last = false) :
    (c.next?.map test).getD false = false := by
  simp [h.next, ht]

theorem Away.keyword (h : σ.Away n c) : c.here.keyword? = none := by
  rcases h.kind with hk | hk <;> simp [Token.keyword?, hk]

theorem not_continues_last (σ : Seam) {k : TokenKind} (hk : k ≠ .endOfText) :
    Parser.continuesWith k σ.last = false := by
  simp [Parser.continuesWith, σ.last_kind, hk.symm]

theorem keyword_last (σ : Seam) : σ.last.keyword? = none := by
  simp [Token.keyword?, σ.last_kind]

/-- Cursors that are near again with fewer bytes ahead have fewer tokens ahead. -/
theorem Near.rest_lt {c' d' : Cursor} (h : σ.Near n c d) (h' : σ.Near c.weight c' d') :
    c'.rest.length < c.rest.length ∧ d'.rest.length < d.rest.length := by
  have hlt := h.reaches.length_lt h'.reaches h'.light
  have hl := h.beside.length
  have hl' := h'.beside.length
  exact ⟨hlt, by omega⟩

theorem Near.tight (h : σ.Near n c d) : σ.Near (c.weight + 1) c d :=
  ⟨h.reaches, h.beside, h.shared, h.lastStop, Nat.lt_succ_self _⟩

theorem AtLast.tight (h : σ.AtLast n c) : σ.AtLast (c.weight + 1) c :=
  ⟨h.cut, h.reaches, h.rest, Nat.lt_succ_self _⟩

theorem Away.tight (h : σ.Away n c) : σ.Away (c.weight + 1) c :=
  ⟨h.cut, h.reaches, h.rest, Nat.lt_succ_self _⟩

theorem Beside.ended {ts us : List Token} (h : σ.Beside ts us) :
    us.getLast?.map Token.kind = some .endOfText := by
  induction h with
  | last h hu => exact congrArg some (hu.kind.symm.trans σ.last_kind)
  | cut h =>
    have hlast := List.getLast?_eq_some_getLast h
    rw [hlast, Option.map_some, σ.more_kind _ hlast]
  | @cons t u ts us ht hu h ih =>
    cases us with
    | nil => cases ih
    | cons v us => rwa [List.getLast?_cons_cons]

theorem Near.ended (h : σ.Near n c d) : d.Ended := h.beside.ended

/-- Where the first list is followed to its end, the other one has tokens of the same kinds before
it goes on. -/
theorem Beside.split {ts us : List Token} (hm : σ.more ≠ []) (h : σ.Beside (ts ++ [σ.last]) us)
    (hts : ∀ t ∈ ts, t.kind ≠ .endOfText) :
    ∃ vs, us = vs ++ σ.more ∧ vs.map Token.kind = ts.map Token.kind := by
  induction ts generalizing us with
  | nil =>
    rw [List.nil_append] at h
    generalize hl : [σ.last] = ts at h
    cases h with
    | last h => exact absurd h hm
    | cut => exact ⟨[], rfl, rfl⟩
    | cons ht =>
      obtain ⟨rfl, -⟩ := List.cons.inj hl
      exact absurd σ.last_kind (σ.tokens_kind _ ht)
  | cons t ts ih =>
    rw [List.cons_append] at h
    generalize hl : t :: (ts ++ [σ.last]) = us' at h
    cases h with
    | last => simp at hl
    | cut => simp at hl
    | @cons _ u _ us _ hu h =>
      obtain ⟨rfl, rfl⟩ := List.cons.inj hl
      obtain ⟨vs, rfl, hvs⟩ := ih h fun t ht => hts t (List.mem_cons_of_mem _ ht)
      exact ⟨u :: vs, rfl, by rw [List.map_cons, List.map_cons, hu.kind, hvs]⟩

/-- A cursor that is away has only its last point, if anything, to the end of its list. -/
theorem Away.rest_of_takes {ts : List Token} (h : σ.Away n c) (hk : d.Takes ts c) :
    ∃ us, d.rest = ts ++ us ++ [σ.last] ∧ ∀ t ∈ us, t.kind = .dot := by
  rcases h.rest with hrest | ⟨hdot, hrest, -⟩
  · exact ⟨[], by rw [hk.rest, hrest, List.append_nil], by simp⟩
  · refine ⟨[c.here], by rw [hk.rest, hrest, List.append_assoc]; rfl, ?_⟩
    rw [List.forall_mem_singleton]
    exact Parser.continuesWith_kind hdot

/-- The first cursor was lost behind tokens none of which is a colon. Where the other one comes to a
colon with no more than a name, this name goes on behind the end of the first list. -/
theorem Near.toColon {ts us : List Token} {c' d' : Cursor} (h : σ.Near n c d) (hk : c.Takes ts c')
    (ha : σ.Away m c') (hk' : d.Takes us d') (hd : d'.here.kind = .colon) (hne : ts ≠ [])
    (hts : ∀ t ∈ ts, t.kind ≠ .colon) (hus : ∀ u ∈ us.tail, u.kind = .ident ∨ u.kind = .dot) :
    ToColon σ.more := by
  obtain ⟨point, hrest, hpoint⟩ := ha.rest_of_takes hk
  have hcolon : ∀ t ∈ ts ++ point, t.kind ≠ .colon := by
    intro t ht
    rcases List.mem_append.1 ht with ht | ht
    · exact hts t ht
    · rw [hpoint t ht]
      decide
  have hends : ∀ t ∈ ts ++ point, t.kind ≠ .endOfText := by
    obtain ⟨pre, hpre⟩ := h.reaches.tokens_eq hrest
    exact fun t ht => σ.tokens_kind t (by rw [hpre]; exact List.mem_append_right _ ht)
  have hbeside := h.beside
  rw [hrest] at hbeside
  obtain ⟨vs, hvs, hmap⟩ := hbeside.split ha.cut hends
  rcases List.append_eq_append_iff.1 (hvs.symm.trans hk'.rest) with
    ⟨names, hnames, hmore⟩ | ⟨ws, hws, hmore⟩
  · refine ⟨names, d'.here, d'.ahead, hmore, hd, fun t ht => hus t ?_⟩
    cases vs with
    | nil => simp [hne] at hmap
    | cons v vs => simp [hnames, ht]
  · cases ws with
    | nil => exact ⟨[], d'.here, d'.ahead, hmore.symm, hd, by simp⟩
    | cons w ws =>
      -- The colon would be one of the tokens that the first cursor has passed.
      obtain ⟨rfl, -⟩ := List.cons.inj hmore
      have hmem : d'.here.kind ∈ (ts ++ point).map Token.kind := by
        rw [← hmap, hws]
        simp
      obtain ⟨t, ht, hkind⟩ := List.mem_map.1 hmem
      exact absurd (hkind.trans hd) (hcolon t ht)

theorem beside_of_like {us vs : List Token} (hlast : σ.Beside [σ.last] vs) :
    ∀ {ts : List Token}, (∀ t ∈ ts, t ∈ σ.tokens) → σ.Like ts us →
      σ.Beside (ts ++ [σ.last]) (us ++ vs) := by
  induction us with
  | nil =>
    intro ts _ h
    cases ts with
    | nil => exact hlast
    | cons t ts => cases h
  | cons u us ih =>
    intro ts hmem h
    cases ts with
    | nil => cases h
    | cons t ts =>
      obtain ⟨htu, hus⟩ := Places.like_cons.1 h
      exact .cons (hmem t (by simp)) htu (ih (fun t ht => hmem t (by simp [ht])) hus)

theorem start_before (ts : List Token) (last : Token) : (Cursor.start ts last).before = none := by
  cases ts <;> rfl

/-- At their starts, two lists are read from near cursors. -/
theorem near_start {us vs : List Token} (hd : d.before = none) (hr : d.rest = us ++ vs)
    (h : σ.Like σ.tokens us) (hv : σ.Beside [σ.last] vs) (hm : σ.tokens = [] → σ.more = [])
    (hw : Token.weight (σ.tokens ++ [σ.last]) < n) : σ.Near n σ.start d := by
  have hb : σ.Beside σ.start.rest d.rest := by
    rw [start_rest, hr]
    exact beside_of_like hv (fun _ ht => ht) h
  have hs : σ.start.here.kind = .endOfText → σ.more = [] := by
    intro hk
    apply hm
    cases ht : σ.tokens with
    | nil => rfl
    | cons t ts =>
      rw [start, ht, Cursor.start] at hk
      exact absurd hk (σ.tokens_kind t (by simp [ht]))
  refine ⟨⟨[], .refl _⟩, hb, hs, ?_, ?_⟩
  · rw [Cursor.lastStop, Cursor.lastStop, hd, start, start_before]
    exact (hb.here hs).start
  · rw [Cursor.weight, start_rest]
    exact hw

end Seam

end Script
