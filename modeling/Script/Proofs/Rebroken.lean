import Script.Proofs.Ends
import Script.Rules.Names

/-!
Tokens with other line breaks between them. They span the same text, and as long as the first of
them stands on its line as before, whatever ended before them still does.
-/
namespace Script

namespace Token

/-- A token without what it tells of line breaks. -/
def unbroken (t : Token) : Token := { t with newlineBefore := false }

theorem lastStop_congr {ts us : List Token} (h : us.map unbroken = ts.map unbroken) :
    us.getLast?.map Token.stop = ts.getLast?.map Token.stop := by
  have hstop : ∀ vs : List Token,
      vs.getLast?.map Token.stop = (vs.map unbroken).getLast?.map Token.stop := by
    intro vs
    rw [List.getLast?_map, Option.map_map]
    rfl
  rw [hstop, h, ← hstop]

theorem spanFrom_congr {ts us : List Token} (h : us.map unbroken = ts.map unbroken)
    (start : Nat) : spanFrom start us = spanFrom start ts := by
  rw [spanFrom, spanFrom, lastStop_congr h]

theorem spanOf_congr {ts us : List Token} (h : us.map unbroken = ts.map unbroken) :
    spanOf us = spanOf ts := by
  match ts, us with
  | [], [] => rfl
  | t :: ts, u :: us =>
    have hstart : u.unbroken.start = t.unbroken.start := congrArg start (List.cons.inj h).1
    have hstart : u.start = t.start := hstart
    rw [spanOf, spanOf, spanFrom_congr h, hstart]

/-- The same tokens with other line breaks between them, but not before the first of them. -/
structure Rebroken (ts us : List Token) : Prop where
  head : us.head? = ts.head?
  same : us.map unbroken = ts.map unbroken

namespace Rebroken

variable {t : Token} {ts us : List Token}

theorem cons (t : Token) (h : Rebroken ts us) : Rebroken (t :: ts) (t :: us) :=
  ⟨rfl, congrArg (unbroken t :: ·) h.same⟩

theorem left (h : Rebroken ts us) (vs : List Token) : Rebroken (ts ++ vs) (us ++ vs) :=
  ⟨by rw [List.head?_append, List.head?_append, h.head],
    by rw [List.map_append, List.map_append, h.same]⟩

theorem right (h : Rebroken ts us) (vs : List Token) : Rebroken (vs ++ ts) (vs ++ us) :=
  ⟨by rw [List.head?_append, List.head?_append, h.head],
    by rw [List.map_append, List.map_append, h.same]⟩

theorem front (h : Rebroken (t :: ts) us) : ∃ us', us = t :: us' :=
  ⟨us.tail, (List.head?_eq_some_iff.1 h.head).elim fun _ hus => by rw [hus]; rfl⟩

theorem spanFrom (h : Rebroken ts us) (start : Nat) : spanFrom start us = spanFrom start ts :=
  spanFrom_congr h.same start

theorem spanOf (h : Rebroken ts us) : spanOf us = spanOf ts := spanOf_congr h.same

theorem continues {k : TokenKind} (h : Rebroken ts us) (hc : Continues k ts) : Continues k us := by
  rwa [Continues, h.head]

/-- What ends before some tokens ends before them with other line breaks between them. -/
theorem alike (h : Rebroken ts us) : Alike ts us := by
  refine ⟨fun t ht => ⟨t, h.head ▸ ht, rfl, rfl⟩, ?_⟩
  rintro ⟨t, u, us, rfl, ht, hu⟩
  have hsame := h.same
  match ts, hsame with
  | v :: w :: ts, hsame =>
    obtain ⟨hv, hsame⟩ := List.cons.inj hsame
    obtain ⟨hw, -⟩ := List.cons.inj hsame
    have hword : t.unbroken.keyword? = v.unbroken.keyword? := congrArg keyword? hv
    have hkind : u.unbroken.kind = w.unbroken.kind := congrArg kind hw
    exact ⟨v, w, ts, rfl, hword.symm.trans ht, fun hk => hu (hkind.trans hk)⟩

end Rebroken

end Token

end Script
