import Script.Proofs.Lexing
import Script.Proofs.Progress.Calls
import Script.Proofs.Runs

/-!
What a reading takes pays for the calls that it makes. Every byte of a token pays for two calls, and
a construct takes a token before it asks for what is inside; so the calls of any reading are bounded
by the bytes that it takes, and no loop and no nesting runs out of its bound.
-/
namespace Script

/-- A cursor from which a text can be read: the end token is last, and no other token is empty. -/
structure Cursor.Sound (c : Cursor) : Prop where
  ended : c.Ended
  size : ∀ t ∈ c.rest, t.kind ≠ .endOfText → 0 < t.text.utf8ByteSize

namespace Cursor

variable {c c' : Cursor} {ts : List Token}

theorem Takes.weight_eq (h : c.Takes ts c') : c.weight = Token.weight ts + c'.weight := by
  rw [weight, h.rest, Token.weight_append]
  rfl

theorem Takes.rest_lt (h : c.Takes ts c') (hts : 0 < Token.weight ts) :
    c'.rest.length < c.rest.length ∧ c'.weight < c.weight := by
  have hweight := h.weight_eq
  have hne : ts.length ≠ 0 := fun hnil => by
    simp [List.length_eq_zero_iff.1 hnil, Token.weight] at hts
  have hlength : c.rest.length = ts.length + c'.rest.length := by rw [h.rest, List.length_append]
  omega

theorem Sound.of_takes (hc : c.Sound) (h : c.Takes ts c') : c'.Sound where
  ended := hc.ended.of_takes h
  size t ht := hc.size t (by rw [h.rest]; exact List.mem_append_right _ ht)

theorem Sound.here_size (hc : c.Sound) (h : c.here.kind ≠ .endOfText) :
    0 < c.here.text.utf8ByteSize :=
  hc.size _ (by simp [rest]) h

theorem Sound.start {ts : List Token} {last : Token} (hl : last.kind = .endOfText)
    (ht : ∀ t ∈ ts, 0 < t.text.utf8ByteSize) : (Cursor.start ts last).Sound where
  ended := by simp [Ended, start_rest, hl]
  size t hmem hk := by
    rw [start_rest, List.mem_append, List.mem_singleton] at hmem
    rcases hmem with hmem | rfl
    · exact ht t hmem
    · exact absurd hl hk

end Cursor

variable {α β : Type}

/-- What comes after a reading that succeeds. -/
def Outcome.andThen (o : Outcome α) (g : α → Cursor → Outcome β) : Outcome β :=
  match o with
  | .ok a c => g a c
  | .error x c => .error x c

/-- From `c` a reading took tokens that pay for `k` calls. What is left over is at least `d` of the
result; a failure may owe one call, less `e`. -/
inductive Outcome.Pays (c : Cursor) (k e : Nat) (d : α → Nat) : Outcome α → Prop
  | ok {a : α} {c' : Cursor} {ts : List Token} (h : c.Takes ts c')
      (hk : k + d a ≤ 2 * Token.weight ts) : Pays c k e d (.ok a c')
  | error {x : ParseError} {c' : Cursor} {ts : List Token} (h : c.Takes ts c')
      (hx : x.fault ≠ .outOfSteps) (hk : k + e ≤ 2 * Token.weight ts + 1) :
      Pays c k e d (.error x c')

theorem Outcome.Pays.takes {c : Cursor} {k e : Nat} {d : α → Nat} {o : Outcome α}
    (h : o.Pays c k e d) : ∃ ts, c.Takes ts o.rest ∧ k ≤ 2 * Token.weight ts + 1 := by
  cases h with
  | ok h hk => exact ⟨_, h, by omega⟩
  | error h _ hk => exact ⟨_, h, by omega⟩

theorem Outcome.Pays.fault {c : Cursor} {k e : Nat} {d : α → Nat} {o : Outcome α} {x : ParseError}
    {c' : Cursor} (h : o.Pays c k e d) (ho : o = .error x c') : x.fault ≠ .outOfSteps := by
  subst ho
  cases h with
  | error _ hx _ => exact hx

/-- A reading at nesting level `n` whose calls the tokens that it takes pay for. -/
def Paid (n : Nat) (c : Cursor) (e : Nat) (d : α → Nat) (f : Nested → Outcome α) : Prop :=
  ∃ qs k, Asks (Nested.level n) f qs ∧ Adds (Call.Takes n) qs k ∧ (f (Nested.level n)).Pays c k e d

namespace Paid

variable {n e : Nat} {c : Cursor} {d : α → Nat}

/-- A reading that makes no calls. -/
theorem const {o : Outcome α} (h : o.Pays c 0 e d) : Paid n c e d fun _ => o :=
  ⟨[], 0, .done _, .nil, h⟩

theorem ite {P : Prop} [Decidable P] {f g : Nested → Outcome α} (h : P → Paid n c e d f)
    (h' : ¬ P → Paid n c e d g) : Paid n c e d fun nested => if P then f nested else g nested := by
  by_cases hp : P
  · simpa only [if_pos hp] using h hp
  · simpa only [if_neg hp] using h' hp

theorem pure (c : Cursor) {a : α} (h : d a = 0) : Paid n c e d fun _ => .ok a c :=
  .const (.ok (.refl c) (by omega))

theorem mono {f : Nested → Outcome α} {e' : Nat} {d' : α → Nat} (h : Paid n c e d f) (he : e' ≤ e)
    (hd : ∀ a, d' a ≤ d a) : Paid n c e' d' f := by
  obtain ⟨qs, k, hasks, hadds, hpays⟩ := h
  refine ⟨qs, k, hasks, hadds, ?_⟩
  generalize f (Nested.level n) = o at hpays
  cases hpays with
  | @ok a _ _ h hk =>
    have := hd a
    exact .ok h (by omega)
  | error h hx hk => exact .error h hx (by omega)

theorem iterates {f : Nested → Outcome (Option α)} (h : Paid n c 1 (fun _ => 2) f) :
    Paid n c 0 (fun o => if o.isSome then 1 else 0) f :=
  h.mono (Nat.zero_le 1) fun o => by split <;> omega

/-- Where one reading ends, what it has left over pays for the next. -/
theorem andThen {f : Nested → Outcome α} {g : α → Cursor → Nested → Outcome β} {d' : β → Nat}
    (h : Paid n c e d f)
    (hg : ∀ a c' ts, c.Takes ts c' → d a ≤ 2 * Token.weight ts →
      Paid n c' (e - d a) (fun b => d' b - d a) (g a c')) :
    Paid n c e d' fun nested => (f nested).andThen fun a c' => g a c' nested := by
  obtain ⟨qs, k, hasks, hadds, hpays⟩ := h
  suffices hrest : ∃ rs j,
      Asks (Nested.level n)
        (fun nested => (f (Nested.level n)).andThen fun a c' => g a c' nested) rs ∧
        Adds (Call.Takes n) rs j ∧
        ((f (Nested.level n)).andThen fun a c' => g a c' (Nested.level n)).Pays c (k + j) e d' by
    obtain ⟨rs, j, hasks', hadds', hpays'⟩ := hrest
    exact ⟨qs ++ rs, k + j,
      hasks.bind (g := fun o nested => o.andThen fun a c' => g a c' nested) hasks',
      hadds.append hadds', hpays'⟩
  generalize f (Nested.level n) = o at hpays
  cases hpays with
  | @ok a c' ts htakes hk =>
    obtain ⟨rs, j, hasks', hadds', hpays'⟩ := hg a c' ts htakes (by omega)
    refine ⟨rs, j, hasks', hadds', ?_⟩
    show (g a c' (Nested.level n)).Pays c (k + j) e d'
    generalize g a c' (Nested.level n) = o at hpays'
    cases hpays' with
    | ok htakes' hj =>
      refine .ok (htakes.trans htakes') ?_
      rw [Token.weight_append]
      omega
    | error htakes' hx hj =>
      refine .error (htakes.trans htakes') hx ?_
      rw [Token.weight_append]
      omega
  | @error x c' ts htakes hx hk => exact ⟨[], 0, .done _, .nil, .error htakes hx hk⟩

end Paid

namespace Parser

/-- At cursors with fewer than `m` bytes ahead, the parsers of level `n` make this one a reading
that is paid for. -/
def Paid (n m e : Nat) (d : α → Nat) (p : Nested → Parser α) : Prop :=
  ∀ s c, c.Sound → c.weight < m → Script.Paid n c e d fun nested => p nested s c

/-- A parser that takes a token before it asks for anything. -/
abbrev Leads (n : Nat) (p : Nested → Parser α) : Prop := Paid n (n + 1) 1 (fun _ => 2) p

/-- A parser that runs after a token was taken. -/
abbrev Follows (n : Nat) (p : Nested → Parser α) : Prop := Paid n n 0 (fun _ => 0) p

/-- A parser that runs after a token was taken, and takes one itself. -/
abbrev Advances (n : Nat) (p : Nested → Parser α) : Prop := Paid n n 0 (fun _ => 1) p

/-- A step of a loop, which takes a token or ends the loop. -/
abbrev Iterates (n : Nat) (p : Nested → Parser (Option α)) : Prop :=
  Paid n n 0 (fun o => if o.isSome then 1 else 0) p

variable {n m e : Nat} {d : α → Nat} {d' : β → Nat} {p : Nested → Parser α}
  {f : α → Nested → Parser β} {s : Surroundings} {c : Cursor}

section Combinators

theorem Paid.mono {m' e' : Nat} {d' : α → Nat} (h : Paid n m e d p) (hm : m' ≤ m) (he : e' ≤ e)
    (hd : ∀ a, d' a ≤ d a) : Paid n m' e' d' p :=
  fun s c hc hw => (h s c hc (Nat.lt_of_lt_of_le hw hm)).mono he hd

theorem Leads.advances (h : Leads n p) : Advances n p :=
  h.mono (Nat.le_succ n) (Nat.zero_le 1) fun _ => Nat.le_succ 1

theorem Advances.follows (h : Advances n p) : Follows n p :=
  h.mono (Nat.le_refl n) (Nat.le_refl 0) fun _ => Nat.zero_le 1

theorem Leads.follows (h : Leads n p) : Follows n p := h.advances.follows

theorem Leads.iterates {p : Nested → Parser (Option α)} (h : Leads n p) : Iterates n p :=
  h.mono (Nat.le_succ n) (Nat.zero_le 1) fun o => by split <;> omega

/-- Where one parser ends, what it has left over pays for the next. -/
theorem paid_bind (h : Script.Paid n c e d fun nested => p nested s c)
    (hf : ∀ a c' ts, c.Takes ts c' → d a ≤ 2 * Token.weight ts →
      Script.Paid n c' (e - d a) (fun b => d' b - d a) fun nested => f a nested s c') :
    Script.Paid n c e d' fun nested => (p nested >>= fun a => f a nested) s c :=
  h.andThen hf

theorem Paid.bind (h : Paid n m e d p)
    (hf : ∀ a, Paid n m (e - d a) (fun b => d' b - d a) (f a)) :
    Paid n m e d' fun nested => p nested >>= fun a => f a nested := by
  intro s c hc hw
  refine paid_bind (h s c hc hw) fun a c' ts htakes _ => hf a s c' (hc.of_takes htakes) ?_
  have := htakes.weight_eq
  omega

/-- After a token fewer bytes are ahead, so the level below can be asked. -/
theorem Leads.bind (h : Leads n p) (hf : ∀ a, Follows n (f a)) :
    Leads n fun nested => p nested >>= fun a => f a nested := by
  intro s c hc hw
  refine paid_bind (h s c hc hw) fun a c' ts htakes hts => hf a s c' (hc.of_takes htakes) ?_
  have := htakes.weight_eq
  omega

/-- What only looks at the cursor costs nothing. -/
theorem look_bind {g : Surroundings → Cursor → α} (hf : ∀ a, Paid n m e d' (f a)) :
    Paid n m e d' fun nested => (fun s c => .ok (g s c) c : Parser α) >>= fun a => f a nested :=
  fun s c hc hw => hf (g s c) s c hc hw

theorem Paid.pure {a : α} (h : d a = 0) : Paid n m e d fun _ => (Pure.pure a : Parser α) :=
  fun _ c _ _ => .const (.ok (.refl c) (by rw [h]; exact Nat.zero_le _))

theorem Paid.ite {P : Prop} [Decidable P] {q : Nested → Parser α} (h : P → Paid n m e d p)
    (h' : ¬ P → Paid n m e d q) : Paid n m e d fun nested => if P then p nested else q nested := by
  by_cases hp : P
  · simpa only [if_pos hp] using h hp
  · simpa only [if_neg hp] using h' hp

theorem Paid.within (h : Paid n m e d p) (brace : BraceContext) (breakEnds : Bool) :
    Paid n m e d fun nested => Parser.within brace breakEnds (p nested) :=
  fun _ c hc hw => h _ c hc hw

theorem Paid.inHead (h : Paid n m e d p) : Paid n m e d fun nested => Parser.inHead (p nested) :=
  fun _ c hc hw => h _ c hc hw

theorem paid_fail {fault : ParseFault} (hf : fault ≠ .outOfSteps) (span : Span) (he : e ≤ 1) :
    Paid n m e d fun _ => (fail fault span : Parser α) :=
  fun _ c _ _ => .const (.error (.refl c) hf (by omega))

theorem paid_unexpected (x : Expected) (he : e ≤ 1) :
    Paid n m e d fun _ => (unexpected x : Parser α) :=
  fun _ c _ _ => .const (.error (.refl c) (by simp) (by omega))

/-- A token that is not the end token is taken. -/
theorem leads_advance_at (hc : c.Sound) (hk : c.here.kind ≠ .endOfText) :
    Script.Paid n c 1 (fun _ => 2) fun _ => advance s c := by
  have hsize := hc.here_size hk
  refine .const (.ok (hc.ended.takes hk) ?_)
  simp only [Token.weight]
  omega

theorem leads_advance_bind_at (hc : c.Sound) (hw : c.weight < n + 1)
    (hk : c.here.kind ≠ .endOfText) {f : Token → Nested → Parser β} (hf : ∀ t, Follows n (f t)) :
    Script.Paid n c 1 (fun _ => 2) fun nested => (advance >>= fun t => f t nested) s c := by
  refine paid_bind (p := fun _ => advance) (leads_advance_at hc hk) fun t c' ts htakes hts => ?_
  have := htakes.weight_eq
  exact hf t s c' (hc.of_takes htakes) (by omega)

theorem follows_advance : Follows n fun _ => advance := by
  intro s c hc hw
  by_cases ha : c.ahead = []
  · have hadvance : c.advance = c := by rw [Cursor.advance, ha]
    refine .const ?_
    rw [advance, hadvance]
    exact .ok (.refl c) (Nat.zero_le _)
  · exact .const (.ok (Cursor.takes_advance ha) (Nat.zero_le _))

theorem follows_token (k : TokenKind) : Follows n fun _ => token k :=
  look_bind fun _ => .ite (fun _ => follows_advance) fun _ => paid_unexpected _ (Nat.zero_le 1)

theorem leads_token {k : TokenKind} (hk : k ≠ .endOfText) : Leads n fun _ => token k := by
  intro s c hc hw
  simp only [token, isAt_bind, ite_apply]
  refine .ite (fun h => leads_advance_at hc ?_) fun _ => paid_unexpected _ (Nat.le_refl 1) s c hc hw
  rw [beq_iff_eq.1 h]
  exact hk

theorem ident_of_keyword? {t : Token} {w : Keyword} (h : t.keyword? = some w) :
    t.kind = .ident := by
  unfold Token.keyword? at h
  split at h
  · assumption
  · cases h

theorem leads_keyword (w : Keyword) : Leads n fun _ => keyword w := by
  intro s c hc hw
  simp only [keyword, isAtKeyword_bind, ite_apply]
  refine .ite (fun h => leads_advance_at hc ?_) fun _ => paid_unexpected _ (Nat.le_refl 1) s c hc hw
  rw [ident_of_keyword? (beq_iff_eq.1 h)]
  simp

theorem follows_skip (k : TokenKind) : Follows n fun _ => skip k := by
  refine look_bind fun b => .ite (fun _ => ?_) fun _ => .pure rfl
  exact follows_advance.bind fun _ => .pure rfl

end Combinators

section Loops

/-- A loop goes on only after its step took a token, so the tokens that are left bound it. -/
theorem follows_collect {item : Nested → Parser (Option α)} (h : Iterates n item) :
    Follows n fun nested => collect (item nested) := by
  have hwithin : ∀ (bound : List Token) (s : Surroundings) (c : Cursor), c.Sound → c.weight < n →
      c.rest.length ≤ bound.length → Script.Paid n c 0 (fun _ => 0) fun nested =>
        collectWithin (item nested) bound s c := by
    intro bound
    induction bound with
    | nil => exact fun _ c _ _ hlen => absurd hlen (by simp [Cursor.rest])
    | cons _ bound ih =>
      intro s c hc hw hlen
      refine paid_bind (h s c hc hw) fun o c' ts htakes hts => ?_
      cases o with
      | none => exact .const (.ok (.refl c') (Nat.le_refl _))
      | some a =>
        obtain ⟨hlength, hweight⟩ := htakes.rest_lt (by simp at hts; omega)
        rw [List.length_cons] at hlen
        exact paid_bind (ih s c' (hc.of_takes htakes) (by omega) (by omega)) fun as c'' _ _ _ =>
          .const (.ok (.refl c'') (Nat.le_refl _))
  exact fun s c hc hw => hwithin c.rest s c hc hw (Nat.le_refl _)

theorem follows_iterate {step : α → Nested → Parser (Option α)} (h : ∀ a, Iterates n (step a))
    (a : α) : Follows n fun nested => iterate (fun a => step a nested) a := by
  have hwithin : ∀ (bound : List Token) (a : α) (s : Surroundings) (c : Cursor), c.Sound →
      c.weight < n → c.rest.length ≤ bound.length → Script.Paid n c 0 (fun _ => 0) fun nested =>
        iterateWithin (fun a => step a nested) bound a s c := by
    intro bound
    induction bound with
    | nil => exact fun _ _ c _ _ hlen => absurd hlen (by simp [Cursor.rest])
    | cons _ bound ih =>
      intro a s c hc hw hlen
      refine paid_bind (h a s c hc hw) fun o c' ts htakes hts => ?_
      cases o with
      | none => exact .const (.ok (.refl c') (Nat.le_refl _))
      | some b =>
        obtain ⟨hlength, hweight⟩ := htakes.rest_lt (by simp at hts; omega)
        rw [List.length_cons] at hlen
        exact ih b s c' (hc.of_takes htakes) (by omega) (by omega)
  exact fun s c hc hw => hwithin c.rest a s c hc hw (Nat.le_refl _)

/-- The step of a list of items, which is one item with what ends it. -/
def listStep (separators : List TokenKind) (close : TokenKind) (item : Parser α) :
    Parser (Option α) := do
  if ← isAt close then return none
  let a ← item
  if ← isAtAny separators then
    let _ ← advance
    return some a
  else if ← isAt close then return some a
  else if ← isAtLineStart then return some a
  else unexpected (.itemEnd separators close)

theorem separated_eq (separators : List TokenKind) (close : TokenKind) (item : Parser α) :
    separated separators close item = collect (listStep separators close item) := rfl

theorem iterates_listStep (separators : List TokenKind) (close : TokenKind) (h : Advances n p) :
    Iterates n fun nested => listStep separators close (p nested) := by
  refine look_bind fun b => .ite (fun _ => .pure rfl) fun _ => h.bind fun a => ?_
  refine look_bind fun b => .ite (fun _ => ?_) fun _ => look_bind fun b => ?_
  · exact follows_advance.bind fun _ => .pure rfl
  · refine .ite (fun _ => .pure rfl) fun _ => look_bind fun b => ?_
    exact .ite (fun _ => .pure rfl) fun _ => paid_unexpected _ (Nat.zero_le 1)

theorem follows_separated (separators : List TokenKind) (close : TokenKind) (h : Advances n p) :
    Follows n fun nested => separated separators close (p nested) := by
  simp only [separated_eq]
  exact follows_collect (iterates_listStep separators close h)

theorem leads_bracketed {opener close : TokenKind} (ho : opener ≠ .endOfText)
    (hc : close ≠ .endOfText) (separators : List TokenKind) (h : Advances n p) :
    Leads n fun nested => bracketed opener separators close (p nested) :=
  (leads_token ho).bind fun _ => ((follows_separated separators close h).within _ _).bind fun _ =>
    (leads_token hc).follows.bind fun _ => .pure rfl

end Loops

section Names

theorem leads_ident : Leads n fun _ => ident :=
  (leads_token (by simp)).bind fun _ => .pure rfl

theorem kind_of_continuesWith {k : TokenKind} {t : Token} (h : continuesWith k t = true) :
    t.kind = k := by
  simp only [continuesWith, Bool.and_eq_true, beq_iff_eq] at h
  exact h.1

theorem iterates_segment : Iterates n fun _ => segment := by
  intro s c hc hw
  simp only [segment, here_bind, nextHas_bind, ite_apply]
  refine .ite (fun h => Script.Paid.iterates ?_) fun _ => .pure c rfl
  refine leads_advance_bind_at hc (by omega) ?_ fun _ => leads_ident.follows.bind fun _ => .pure rfl
  rw [kind_of_continuesWith (Bool.and_eq_true_iff.1 h).1]
  simp

theorem leads_name : Leads n fun _ => name := by
  refine look_bind fun start => ?_
  intro s c hc hw
  simp only [skip_bind]
  have hrest : ∀ relative : Bool, Follows n fun _ => do
      let first ← ident
      let others ← collect segment
      return (⟨relative, first :: others, ← spanFrom start⟩ : Name) := fun _ =>
    leads_ident.follows.bind fun _ => (follows_collect iterates_segment).bind fun _ =>
      look_bind fun _ => .pure rfl
  refine .ite (fun h => ?_) fun _ => ?_
  · exact leads_advance_bind_at (f := fun _ _ => _) hc hw (by rw [h]; simp) fun _ => hrest true
  · exact (leads_ident.bind fun _ => (follows_collect iterates_segment).bind fun _ =>
      look_bind fun _ => .pure rfl) s c hc hw

theorem leads_typeRef : Leads n fun _ => typeRef := by
  intro s c hc hw
  simp only [typeRef, primitive?, bind_assoc, here_bind, pure_bind]
  cases hx : (if c.here.kind = .ident then PrimitiveType.ofWord? c.here.text else none) with
  | some type =>
    refine leads_advance_bind_at hc hw ?_ fun t => .pure rfl
    split at hx
    · rename_i hk
      rw [hk]
      simp
    · cases hx
  | none =>
    simp only [isAtAny_bind, ite_apply]
    refine .ite (fun _ => ?_) fun _ => paid_unexpected _ (Nat.le_refl 1) s c hc hw
    exact (leads_name.bind fun _ => .pure rfl) s c hc hw

theorem follows_annotation : Follows n fun _ => annotation := by
  refine look_bind fun t => .ite (fun _ => ?_) fun _ => .pure rfl
  exact leads_typeRef.follows.bind fun _ => .pure rfl

end Names

end Parser

end Script
