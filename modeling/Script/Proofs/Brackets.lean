import Script.Token.Brackets

/-!
Tokens whose brackets are closed in their turn leave the brackets around them as they are. So the
tokens of a part that none of its brackets stands around can be told from all others, whatever the
part stands in.
-/
namespace Script

namespace Token

variable {t u o c : Token} {ts us : List Token} {k : Nat}

theorem enter_opener (ho : o.kind.isOpener = true) (opened : List Token) :
    enter opened o = o :: opened := by
  rw [enter, if_pos ho]

theorem enter_closer (hc : c.kind.isCloser = true) (opened : List Token) :
    enter opened c = opened.tail := by
  have ho : c.kind.isOpener = false := by
    cases hk : c.kind <;> rw [hk] at hc <;> first | rfl | cases hc
  simp [enter, ho, hc]

theorem enter_plain (ho : t.kind.isOpener = false) (hc : t.kind.isCloser = false)
    (opened : List Token) : enter opened t = opened := by
  simp [enter, ho, hc]

theorem mem_foldl_enter {opened : List Token} (h : t ∈ ts.foldl enter opened) :
    t ∈ opened ∨ t ∈ ts ∧ t.kind.isOpener = true := by
  induction ts generalizing opened with
  | nil => exact .inl h
  | cons u ts ih =>
    rcases ih h with h | ⟨h, ho⟩
    · unfold enter at h
      split at h <;> rename_i hu
      · rcases List.mem_cons.1 h with rfl | h
        · exact .inr ⟨List.mem_cons_self, hu⟩
        · exact .inl h
      · split at h
        · exact .inl (List.mem_of_mem_tail h)
        · exact .inl h
    · exact .inr ⟨List.mem_cons_of_mem u h, ho⟩

/-- What is open is an opener among the tokens before. -/
theorem mem_of_unclosed (h : t ∈ unclosed ts) : t ∈ ts ∧ t.kind.isOpener = true :=
  (mem_foldl_enter h).resolve_left List.not_mem_nil

namespace Balanced

theorem append (h : Balanced ts) (h' : Balanced us) : Balanced (ts ++ us) := by
  induction h with
  | nil => exact h'
  | plain ho hc _ ih => exact .plain ho hc ih
  | bracketed ho hts hc _ _ ih =>
    rw [List.cons_append, List.append_assoc]
    exact .bracketed ho hts hc ih

theorem single (ho : t.kind.isOpener = false) (hc : t.kind.isCloser = false) : Balanced [t] :=
  .plain ho hc .nil

theorem enclosed (ho : o.kind.isOpener = true) (h : Balanced ts) (hc : c.kind.isCloser = true) :
    Balanced (o :: (ts ++ [c])) := .bracketed ho h hc .nil

/-- Balanced tokens leave the brackets around them as they are. -/
theorem foldl_enter (h : Balanced ts) : ∀ opened, ts.foldl enter opened = opened := by
  induction h with
  | nil => exact fun _ => rfl
  | plain ho hc _ ih =>
    intro opened
    rw [List.foldl_cons, enter_plain ho hc, ih]
  | bracketed ho _ hc _ ih ih' =>
    intro opened
    rw [List.foldl_cons, enter_opener ho, List.foldl_append, ih, List.foldl_cons, enter_closer hc,
      List.tail_cons, ih']

theorem unclosed_append (h : Balanced ts) (us : List Token) :
    unclosed (ts ++ us) = unclosed us := by
  rw [unclosed, List.foldl_append, h.foldl_enter, unclosed]

/-- The brackets opened by the front of balanced tokens stand on top of those around them. -/
theorem foldl_front (h : Balanced ts) : ∀ {a b : List Token}, ts = a ++ b →
    ∀ opened, a.foldl enter opened = unclosed a ++ opened := by
  induction h with
  | nil =>
    intro a b hab opened
    obtain ⟨rfl, -⟩ := List.append_eq_nil_iff.1 hab.symm
    rfl
  | @plain t ts ho hc _ ih =>
    intro a b hab opened
    cases a with
    | nil => rfl
    | cons v a =>
      obtain ⟨rfl, htail⟩ := List.cons.inj hab
      rw [unclosed, List.foldl_cons, List.foldl_cons, enter_plain ho hc, enter_plain ho hc,
        ih htail opened]
      rfl
  | @bracketed o c ts us ho hts hc hus ih ih' =>
    intro a b hab opened
    cases a with
    | nil => rfl
    | cons v a =>
      obtain ⟨rfl, htail⟩ := List.cons.inj hab
      rw [unclosed, List.foldl_cons, List.foldl_cons, enter_opener ho, enter_opener ho]
      rcases List.append_eq_append_iff.1 htail with ⟨w, rfl, hw⟩ | ⟨w, rfl, rfl⟩
      · -- The front ends behind the text of the bracket, so it closes the bracket or ends before.
        cases w with
        | nil =>
          rw [List.append_nil, hts.foldl_enter, hts.foldl_enter]
          rfl
        | cons x w =>
          obtain ⟨rfl, rfl⟩ := List.cons.inj hw
          rw [List.foldl_append, List.foldl_append, hts.foldl_enter, hts.foldl_enter,
            List.foldl_cons, List.foldl_cons, enter_closer hc, enter_closer hc, List.tail_cons,
            List.tail_cons, ih' rfl opened]
          rfl
      · rw [ih rfl, ih rfl, List.append_assoc]
        rfl

/-- A place at which a bracket is the innermost one stands before the closer of that bracket, and no
bracket that opens between the two is open there. -/
theorem around {a b before after : List Token} (hts : Balanced ts) (ho : o.kind.isOpener = true)
    (hc : c.kind.isCloser = true) (hnodup : (before ++ u :: after).Nodup)
    (hall : before ++ u :: after = a ++ (o :: (ts ++ [c]) ++ b))
    (h : (unclosed before).head? = some o) :
    ∃ d e, before = a ++ o :: d ∧ ts ++ [c] = d ++ u :: e ∧ after = e ++ b ∧ unclosed d = [] := by
  obtain ⟨hfront, -, hapart⟩ := List.nodup_append.1 hnodup
  obtain ⟨hmem, -⟩ := mem_of_unclosed (List.mem_of_head? h)
  obtain ⟨w, rfl, hw⟩ : ∃ w, before = a ++ w ∧ o :: (ts ++ [c]) ++ b = w ++ u :: after := by
    rcases List.append_eq_append_iff.1 hall with ⟨w, -, hw⟩ | hw
    · exact absurd rfl (hapart o hmem o (by simp [hw]))
    · exact hw
  cases w with
  | nil => exact absurd rfl (hapart o hmem o (by simp [← (List.cons.inj hw).1]))
  | cons v d =>
    obtain ⟨rfl, hrest⟩ := List.cons.inj hw
    obtain ⟨-, hd, hbefore⟩ := List.nodup_append.1 hfront
    obtain ⟨hd, -⟩ := List.nodup_cons.1 hd
    have ha : o ∉ a := fun hin => hbefore o hin o List.mem_cons_self rfl
    rw [unclosed, List.foldl_append, List.foldl_cons, enter_opener ho] at h
    -- Behind its closer the bracket is no longer open.
    have hclosed : ∀ v, d ≠ ts ++ [c] ++ v := by
      rintro v rfl
      rw [List.foldl_append, List.foldl_append, hts.foldl_enter, List.foldl_cons, enter_closer hc,
        List.foldl_nil, List.tail_cons] at h
      rcases mem_foldl_enter (List.mem_of_head? h) with hin | ⟨hin, -⟩
      · exact ha (mem_of_unclosed hin).1
      · exact hd (List.mem_append_right _ hin)
    obtain ⟨e, hsplit, rfl⟩ : ∃ e, ts ++ [c] = d ++ u :: e ∧ after = e ++ b := by
      rcases List.append_eq_append_iff.1 hrest with ⟨v, hv, -⟩ | ⟨v, hv, hu⟩
      · exact absurd hv (hclosed v)
      · cases v with
        | nil => exact absurd (by rw [hv, List.append_nil, List.append_nil]) (hclosed [])
        | cons x e =>
          obtain ⟨rfl, rfl⟩ := List.cons.inj hu
          exact ⟨e, hv, rfl⟩
    refine ⟨d, e, rfl, hsplit, rfl, ?_⟩
    have hfront := congrArg List.dropLast hsplit
    rw [List.dropLast_concat, List.dropLast_append_of_ne_nil (List.cons_ne_nil u e)] at hfront
    rw [hts.foldl_front hfront] at h
    cases hopened : unclosed d with
    | nil => rfl
    | cons x xs =>
      rw [hopened] at h
      obtain rfl := Option.some.inj h
      exact absurd (mem_of_unclosed (hopened ▸ List.mem_cons_self)).1 hd

end Balanced

/-- Every token at the position `k` is one that no bracket among these tokens stands around. -/
def Shallow (k : Nat) (ts : List Token) : Prop :=
  ∀ a t b, ts = a ++ t :: b → t.start = k → unclosed a = []

namespace Shallow

theorem left (h : Shallow k (ts ++ us)) : Shallow k ts :=
  fun a t b hts hk => h a t (b ++ us) (by rw [hts, List.append_assoc, List.cons_append]) hk

theorem right (h : Shallow k (ts ++ us)) (hts : Balanced ts) : Shallow k us := by
  intro a t b hus hk
  rw [← hts.unclosed_append]
  exact h (ts ++ a) t b (by rw [hus, List.append_assoc]) hk

theorem tail (h : Shallow k (t :: ts)) (ho : t.kind.isOpener = false)
    (hc : t.kind.isCloser = false) : Shallow k ts := by
  rw [← List.singleton_append] at h
  exact h.right (.single ho hc)

/-- Nothing in brackets, and no bracket that closes one, is shallow. -/
theorem closed (h : Shallow k (o :: (ts ++ [c]))) (ho : o.kind.isOpener = true)
    (hts : Balanced ts) : ∀ t ∈ ts ++ [c], t.start ≠ k := by
  intro t ht hk
  obtain ⟨a, b, hab⟩ := List.append_of_mem ht
  have hnil := h (o :: a) t b (by rw [hab]; rfl) hk
  rw [unclosed, List.foldl_cons, enter_opener ho] at hnil
  have hfront : a.foldl enter [o] = unclosed a ++ [o] := by
    rcases List.append_eq_append_iff.1 hab with ⟨w, rfl, hw⟩ | ⟨w, hts', hw⟩
    · cases w with
      | nil =>
        rw [List.append_nil, hts.foldl_enter, unclosed, hts.foldl_enter]
        rfl
      | cons x w =>
        have hlength := congrArg List.length hw
        simp at hlength
    · exact hts.foldl_front hts' [o]
  rw [hfront] at hnil
  simp at hnil

end Shallow

end Token

end Script
