import Script.Proofs.Complete.Statement
import Script.Proofs.Lexing.Respelled
import Script.Proofs.Parted
import Script.Proofs.Printed.Words
import Script.Proofs.Readings
import Script.Proofs.Renamed.Statement
import Script.Tree.Layout

/-!
Names are interchangeable. Where an identifier of a program that is no keyword is spelled as another
one of its length, be it a soft keyword, the text is a program again, and its tree differs in that
name alone: a soft keyword has its meaning only before what never stands behind a name.
-/
namespace Script

open Chars Token

/-- An identifier takes as many bytes as it has characters. -/
theorem Ident.size_of_isProper {i : Ident} (h : i.isProper = true) :
    i.text.utf8ByteSize = i.text.length := by
  rw [← byteLength_toList, ← String.length_toList]
  exact byteLength_word (parts_of_isProper h)

variable {t last : Token} {ts us vs : List Token}

/-- Only the token of the identifier is spelled anew. -/
theorem Renaming.tokens_around (r : Renaming) (ht : t.kind = .ident)
    (hold : r.old = ⟨t.text, t.span⟩) (hothers : ∀ u ∈ us ++ vs, u.start ≠ t.start) :
    r.tokens (us ++ t :: vs) = us ++ { t with text := r.new } :: vs := by
  have hsame : ∀ u ∈ us ++ vs, r.token u = u := by
    intro u hu
    refine (r.token_cases u).resolve_right fun h => hothers u hu ?_
    exact congrArg (fun i : Ident => i.span.start) (h.2.1.trans hold)
  have hmap : ∀ ws, (∀ u ∈ ws, r.token u = u) → r.tokens ws = ws :=
    fun ws hws => (List.map_congr_left hws).trans (List.map_id' ws)
  rw [List.forall_mem_append] at hsame
  rw [r.tokens_append, r.tokens_cons, hmap us hsame.1, hmap vs hsame.2, Renaming.token,
    if_pos ⟨ht, hold.symm⟩]

/-- The tokens of a text in which an identifier is spelled anew. -/
theorem Lexed.respell (r : Renaming) {a b : String}
    (h : Lexed.ofString 0 (a ++ r.old.text ++ b) = ⟨us ++ t :: vs, .ok last⟩)
    (ht : t.kind = .ident) (hold : r.old = ⟨t.text, t.span⟩) (hstart : t.start = a.utf8ByteSize)
    (hvs : ∀ u ∈ vs.head?, u.newlineBefore = false → u.kind.isString = false)
    (hnew : (⟨r.new, t.span⟩ : Ident).isProper = true) :
    Lexed.ofString 0 (a ++ r.new ++ b) = ⟨us ++ { t with text := r.new } :: vs, .ok last⟩ := by
  have htext : r.old.text = t.text := congrArg Ident.text hold
  obtain ⟨after, hscans, rfl⟩ := lexed_iff.1 h
  obtain ⟨d, w, hword, hd, hw⟩ := Ident.isProper_iff.1 hnew
  have hsize : byteLength (d :: w) = t.text.utf8ByteSize := by
    rw [← hword, byteLength_toList, r.size, htext]
  obtain ⟨a', b', hcs, hat, hspelled⟩ := hscans.respell ht hvs hd hw hsize
  -- What stands before the token takes as many bytes as `a`, so it is `a`.
  rw [String.toList_append, String.toList_append, List.append_assoc, htext] at hcs
  rw [Nat.zero_add, hstart, ← byteLength_toList] at hat
  obtain ⟨rfl, hrest⟩ := append_inj hcs hat
  obtain rfl := List.append_cancel_left hrest
  have hwhole : a.toList ++ (d :: w ++ b.toList) = (a ++ r.new ++ b).toList := by
    rw [String.toList_append, String.toList_append, hword, List.append_assoc]
  have hlast : (a ++ r.new ++ b).utf8ByteSize = (a ++ r.old.text ++ b).utf8ByteSize := by
    simp only [String.utf8ByteSize_append, r.size]
  have hofList : String.ofList (d :: w) = r.new := by rw [← hword, String.ofList_toList]
  rw [hwhole, hofList] at hspelled
  exact lexed_iff.2 ⟨after, hspelled, by rw [hlast]⟩

namespace Program

/-- A program in which a name that is no keyword and no built-in type is spelled as another
identifier of its length, which may be a soft keyword, is a program with that name in its tree. -/
theorem parse_renamed {a b old new : String} {p : Program} {ts : List Token} {t last : Token}
    (h : parse (a ++ old ++ b) = .ok p)
    (hl : Lexed.ofString 0 (a ++ old ++ b) = ⟨ts, .ok last⟩) (ht : t ∈ ts) (hk : t.kind = .ident)
    (htext : t.text = old) (hstart : t.start = a.utf8ByteSize)
    (hplain : Keyword.ofText? old = none) (huntyped : PrimitiveType.ofWord? old = none)
    (hnew : (⟨new, t.span⟩ : Ident).isProper = true) (hlength : new.length = old.length)
    (hsoft : ∀ w, Keyword.ofText? new = some w → w.isSoft = true)
    (hstill : PrimitiveType.ofWord? new = none) :
    parse (a ++ new ++ b) = .ok (p.mapIdents (Ident.rename ⟨old, t.span⟩ new)) := by
  subst htext
  obtain ⟨us, last', hl', hp⟩ := parse_iff.1 h
  obtain ⟨rfl, hlast⟩ := Lexed.mk.inj (hl.symm.trans hl')
  obtain rfl := Except.ok.inj hlast
  obtain ⟨after, hscans, -⟩ := lexed_iff.1 hl
  have hreadable : Word.Readable ⟨.ident, t.text⟩ := hk ▸ (hscans.mem ht).2
  have hsize : new.utf8ByteSize = t.text.utf8ByteSize := by
    have hold : (⟨t.text, t.span⟩ : Ident).isProper = true := hreadable.isProper
    rw [Ident.size_of_isProper hnew, Ident.size_of_isProper hold]
    exact hlength
  let r : Renaming := ⟨⟨t.text, t.span⟩, new, hsize, hplain, huntyped, hsoft, hstill⟩
  obtain ⟨us, vs, rfl⟩ := List.append_of_mem ht
  have hothers := hscans.sorted.others fun u hu => (hscans.mem hu).2.size
  have hword : t.keyword? = none := by rw [Token.keyword?, if_pos hk, hplain]
  have hbehind : ∀ u ∈ vs.head?, u.newlineBefore = false → u.kind.isString = false := by
    intro u hu hline
    obtain ⟨vs, rfl⟩ := List.head?_eq_some_iff.1 hu
    have hparted := hp.parted
    rw [List.append_assoc] at hparted
    exact hparted.next hk hword hline
  have hspelled := Lexed.respell r hl hk rfl hstart hbehind hnew
  have hwritten : (p.mapIdents r.ident).Written (r.tokens _) := hp.rename
  have hend : r.token last = last := r.token_of_kind (by rw [Lexed.last_kind hl]; decide)
  rw [r.tokens_append, r.tokens_around hk rfl hothers, r.tokens_cons, hend] at hwritten
  exact parse_iff.2 ⟨_, last, hspelled, hwritten⟩

/-- The soft keyword `node` declares nothing before a parenthesis, so it may be what is called. -/
theorem parse_renamed_soft : ∃ p, parse ("let x = 1\n" ++ "abcd" ++ "(x)") = .ok p ∧
    Keyword.ofText? "node" = some .nodeWord ∧
    parse ("let x = 1\n" ++ "node" ++ "(x)") =
      .ok (p.mapIdents (Ident.rename ⟨"abcd", ⟨10, 14⟩⟩ "node")) ∧
    (p.mapIdents (Ident.rename ⟨"abcd", ⟨10, 14⟩⟩ "node")).print 0 = "let x = 1\nnode(x)" := by
  have hprint : (parse ("let x = 1\n" ++ "abcd" ++ "(x)")).toOption.any (fun p =>
      (p.mapIdents (Ident.rename ⟨"abcd", ⟨10, 14⟩⟩ "node")).print 0 == "let x = 1\nnode(x)") =
        true := by decide +kernel
  obtain ⟨p, hp, hprint⟩ := (Option.any_eq_true _ _).1 hprint
  have hl : Lexed.ofString 0 ("let x = 1\n" ++ "abcd" ++ "(x)") =
      ⟨[⟨.ident, "let", 0, false⟩, ⟨.ident, "x", 4, false⟩, ⟨.assign, "=", 6, false⟩,
        ⟨.number .int, "1", 8, false⟩, ⟨.ident, "abcd", 10, true⟩, ⟨.openParen, "(", 14, false⟩,
        ⟨.ident, "x", 15, false⟩, ⟨.closeParen, ")", 16, false⟩],
      .ok ⟨.endOfText, "", 17, false⟩⟩ := by rfl
  have hsoft : ∀ w, Keyword.ofText? "node" = some w → w.isSoft = true := by
    intro w hw
    obtain rfl : Keyword.nodeWord = w := Option.some.inj hw
    rfl
  exact ⟨p, eq_ok_of_toOption hp, by decide,
    @parse_renamed _ _ _ "node" _ _ ⟨.ident, "abcd", 10, true⟩ _ (eq_ok_of_toOption hp) hl
      (by simp) rfl rfl rfl (by decide) (by decide) (by decide) rfl hsoft (by decide),
    beq_iff_eq.1 hprint⟩

end Program

end Script
