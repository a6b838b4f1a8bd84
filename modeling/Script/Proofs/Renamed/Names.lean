import Script.Proofs.Openings
import Script.Proofs.Renamed.Ends

/-!
Names that are spelled anew. Where one identifier that is no keyword is spelled as another one, or
as a soft keyword, what is written as a name before is written as a name again: a name is free to be
a soft keyword wherever an identifier is read.
-/
namespace Script

/-- An identifier in its place, which is no keyword and no built-in type, and another spelling of
the same size for it, which may be a soft keyword. -/
structure Renaming where
  old : Ident
  new : String
  size : new.utf8ByteSize = old.text.utf8ByteSize
  plain : Keyword.ofText? old.text = none
  untyped : PrimitiveType.ofWord? old.text = none
  soft : ∀ w, Keyword.ofText? new = some w → w.isSoft = true
  stillUntyped : PrimitiveType.ofWord? new = none

namespace Renaming

variable (r : Renaming) {t : Token} {ts us : List Token}

def ident (i : Ident) : Ident := Ident.rename r.old r.new i

/-- The token of the identifier spelled anew, and every other token as it is. -/
def token (t : Token) : Token :=
  { t with text := if t.kind = .ident ∧ (⟨t.text, t.span⟩ : Ident) = r.old then r.new else t.text }

def tokens (ts : List Token) : List Token := ts.map r.token

@[simp] theorem tokens_nil : r.tokens [] = [] := rfl

@[simp] theorem tokens_cons (t : Token) (ts : List Token) :
    r.tokens (t :: ts) = r.token t :: r.tokens ts := rfl

@[simp] theorem tokens_append (ts us : List Token) :
    r.tokens (ts ++ us) = r.tokens ts ++ r.tokens us := List.map_append

theorem token_cases (t : Token) : r.token t = t ∨ t.kind = .ident ∧
    (⟨t.text, t.span⟩ : Ident) = r.old ∧ r.token t = { t with text := r.new } := by
  unfold token
  split
  · rename_i h
    exact .inr ⟨h.1, h.2, rfl⟩
  · exact .inl rfl

theorem token_size (t : Token) : (r.token t).text.utf8ByteSize = t.text.utf8ByteSize := by
  rcases r.token_cases t with h | ⟨-, hold, h⟩
  · rw [h]
  · rw [h]
    exact r.size.trans (congrArg (fun i : Ident => i.text.utf8ByteSize) hold.symm)

@[simp] theorem token_stop (t : Token) : (r.token t).stop = t.stop :=
  congrArg (t.start + ·) (r.token_size t)

@[simp] theorem token_span (t : Token) : (r.token t).span = t.span :=
  congrArg (Span.mk t.start) (r.token_stop t)

theorem lastStop_tokens (ts : List Token) :
    (r.tokens ts).getLast?.map Token.stop = ts.getLast?.map Token.stop := by
  have hstop : Token.stop ∘ r.token = Token.stop := funext r.token_stop
  rw [tokens, List.getLast?_map, Option.map_map, hstop]

theorem firstStart_tokens (ts : List Token) :
    (r.tokens ts).head?.map Token.start = ts.head?.map Token.start := by
  have hstart : Token.start ∘ r.token = Token.start := rfl
  rw [tokens, List.head?_map, Option.map_map, hstart]

theorem spanFrom_tokens (start : Nat) (ts : List Token) :
    Token.spanFrom start (r.tokens ts) = Token.spanFrom start ts := by
  rw [Token.spanFrom, r.lastStop_tokens, Token.spanFrom]

theorem spanOf_tokens (ts : List Token) : Token.spanOf (r.tokens ts) = Token.spanOf ts := by
  cases ts with
  | nil => rfl
  | cons t ts => exact r.spanFrom_tokens t.start (t :: ts)

theorem token_of_kind (h : t.kind ≠ .ident) : r.token t = t :=
  (r.token_cases t).resolve_right fun h' => h h'.1

theorem token_of_string (h : t.kind.isString = true) : r.token t = t := by
  refine r.token_of_kind fun hk => ?_
  rw [hk] at h
  cases h

theorem token_of_keyword {w : Keyword} (h : t.keyword? = some w) : r.token t = t := by
  refine (r.token_cases t).resolve_right ?_
  rintro ⟨hk, hold, -⟩
  have htext : t.text = r.old.text := congrArg Ident.text hold
  rw [Token.keyword?, if_pos hk, htext, r.plain] at h
  cases h

theorem token_of_primitive {type : PrimitiveType} (h : PrimitiveType.ofWord? t.text = some type) :
    r.token t = t := by
  refine (r.token_cases t).resolve_right ?_
  rintro ⟨-, hold, -⟩
  have htext : t.text = r.old.text := congrArg Ident.text hold
  rw [htext, r.untyped] at h
  cases h

@[simp] theorem keyword? {w : Keyword} (h : t.keyword? = some w) :
    (r.token t).keyword? = some w := by
  rwa [r.token_of_keyword h]

/-- A keyword that was put in is a soft one. -/
theorem keyword_cases {w : Keyword} (h : (r.token t).keyword? = some w) :
    t.keyword? = some w ∨ w.isSoft = true := by
  rcases r.token_cases t with ht | ⟨hk, -, ht⟩
  · exact .inl (ht ▸ h)
  · rw [ht, Token.keyword?, if_pos hk] at h
    exact .inr (r.soft w h)

theorem not_binding (h : Parser.isBindingWord t.keyword? = false) :
    Parser.isBindingWord (r.token t).keyword? = false := by
  cases hw : (r.token t).keyword? with
  | none => rfl
  | some w =>
    rcases r.keyword_cases hw with ht | hsoft
    · rwa [ht] at h
    · cases w <;> first | rfl | cases hsoft

theorem untyped_token (h : PrimitiveType.ofWord? t.text = none) :
    PrimitiveType.ofWord? (r.token t).text = none := by
  rcases r.token_cases t with ht | ⟨-, -, ht⟩
  · rwa [ht]
  · rw [ht]
    exact r.stillUntyped

theorem alike (us : List Token) : Alike us (r.tokens us) := by
  constructor
  · cases us with
    | nil => nofun
    | cons t us =>
      intro u hu
      obtain rfl := Option.some.inj hu
      exact ⟨t, rfl, rfl, rfl⟩
  · rintro ⟨_, _, _, hus, ht, hu⟩
    obtain ⟨t, vs, rfl, rfl, hrest⟩ := List.map_eq_cons_iff.1 hus
    obtain ⟨u, ws, rfl, rfl, -⟩ := List.map_eq_cons_iff.1 hrest
    exact ⟨t, u, ws, rfl, (r.keyword_cases ht).resolve_right (by decide), hu⟩

end Renaming

variable {r : Renaming} {ts us : List Token} {t : Token}

theorem Continues.rename {kind : TokenKind} (h : Continues kind ts) :
    Continues kind (r.tokens ts) := by
  obtain ⟨t, ht, hk⟩ := h
  cases ts with
  | nil => cases ht
  | cons u ts =>
    obtain rfl := Option.some.inj ht
    exact ⟨r.token u, rfl, hk⟩

theorem Ident.Written.rename {i : Ident} (h : i.Written t) : (r.ident i).Written (r.token t) := by
  obtain ⟨hk, rfl⟩ := h
  refine ⟨hk, ?_⟩
  rw [Renaming.ident, Ident.rename, r.token_span]
  by_cases hold : (⟨t.text, t.span⟩ : Ident) = r.old
  · rw [if_pos hold, Renaming.token, if_pos ⟨hk, hold⟩]
  · rw [if_neg hold, Renaming.token, if_neg fun h => hold h.2]

theorem Ident.MoreWritten.rename {is : List Ident} (h : Ident.MoreWritten is ts) :
    Ident.MoreWritten (is.map r.ident) (r.tokens ts) := by
  induction h with
  | nil => exact .nil
  | cons hd ht hi _ ih => exact .cons hd ht hi.rename ih

theorem Name.Written.rename {n : Name} (h : n.Written ts) :
    (n.mapIdents r.ident).Written (r.tokens ts) := by
  cases h with
  | absolute hi his =>
    rw [Name.mapIdents, ← r.spanOf_tokens]
    exact .absolute hi.rename his.rename
  | relative hd hi his =>
    rw [Name.mapIdents, ← r.spanOf_tokens]
    exact .relative hd hi.rename his.rename

theorem TypeRef.Written.rename {type : TypeRef} (h : type.Written ts) :
    (type.mapIdents r.ident).Written (r.tokens ts) := by
  cases h with
  | primitive hk ht =>
    rw [r.tokens_cons, r.token_of_primitive ht]
    exact .primitive hk ht
  | named hn ht => exact .named hn.rename fun hk => r.untyped_token (ht hk)

theorem TypeRef.AnnotationWritten.rename {o : Option TypeRef}
    (h : TypeRef.AnnotationWritten o ts) :
    TypeRef.AnnotationWritten (o.map (TypeRef.mapIdents r.ident)) (r.tokens ts) := by
  cases h with
  | none => exact .none
  | some hc ht => exact .some hc.rename ht.rename

/-- A name stands for an operand again, as a soft keyword does not mean anything else there. -/
theorem Name.WrittenOperand.rename {n : Name} (h : n.WrittenOperand ts) :
    (n.mapIdents r.ident).WrittenOperand (r.tokens ts) := by
  refine ⟨h.name.rename, ?_⟩
  cases ts with
  | nil => nofun
  | cons t ts =>
    intro u hu w hw
    obtain rfl := Option.some.inj hu
    rcases r.keyword_cases hw with ht | hsoft
    · exact h.free t rfl w ht
    · refine ⟨?_, hsoft⟩
      cases w <;> first | rfl | cases hsoft

/-- A list whose items may be spelled anew may be spelled anew. -/
theorem ListWritten.rename {α : Type} {separators : List TokenKind} {close : TokenKind}
    {written : α → List Token → Prop} {ends : List Token → α → Prop} {f : α → α} {as : List α}
    (h : ListWritten separators close written ends as ts)
    (hw : ∀ a us, written a us → written (f a) (r.tokens us))
    (he : ∀ a us, ends us a → ends (r.tokens us) (f a)) :
    ListWritten separators close written ends (as.map f) (r.tokens ts) := by
  induction h with
  | done ht => exact .done ht
  | @separated a as t ts us ha hend ht _ ih =>
    rw [r.tokens_append, r.tokens_cons]
    exact .separated (hw _ _ ha) (he _ _ hend) ht ih
  | @unseparated a as t ts us ha hend ht hb _ ih =>
    rw [r.tokens_append, r.tokens_cons]
    exact .unseparated (hw _ _ ha) (he _ _ hend) ht hb ih

end Script
