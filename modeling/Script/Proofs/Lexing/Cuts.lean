import Script.Proofs.Lexing.Moves
import Script.Proofs.Lexing.Tokens
import Script.Rules.Names

/-!
Tokens cut from a source: tokens that are read again from nothing but the bytes from the first to
the last of them. Any run of neighbouring tokens is such, and so are the tokens of a hole.
-/
namespace Script

open Chars Lexeme

/-- The bytes from the first to the last of some tokens are read as these tokens. -/
structure CutAt (source : List Char) (ts : List Token) (pre mid post : List Char) : Prop where
  source : source = pre ++ (mid ++ post)
  scans : ∃ newline, Scans (byteLength pre) newline mid [] ts false
  start : ts.head?.map Token.start = some (byteLength pre)
  stop : ts.getLast?.map Token.stop = some (byteLength pre + byteLength mid)

def Cut (source : List Char) (ts : List Token) : Prop := ∃ pre mid post, CutAt source ts pre mid post

variable {source : List Char} {t : Token} {ts us vs : List Token}

theorem Scans.from_any {pos : Nat} {newline after : Bool} {cs r : List Char}
    (h : Scans pos newline cs r (us ++ ts) after) :
    ∃ cs' rest newline', cs = cs' ++ rest ∧ Scans (pos + byteLength cs') newline' rest r ts after := by
  induction us generalizing pos newline cs with
  | nil => exact ⟨[], cs, newline, rfl, h⟩
  | cons u us ih =>
    obtain ⟨w, rest, rfl, h, -⟩ := h.drop_token
    obtain ⟨cs', rest, newline', rfl, h⟩ := ih h
    refine ⟨w ++ cs', rest, newline', by rw [List.append_assoc], ?_⟩
    rwa [byteLength_append, ← Nat.add_assoc]

/-- A part of the tokens of a text, with the bytes that they span. -/
theorem Scans.cut {pre cs post r : List Char} {newline after : Bool}
    (h : Scans (byteLength pre) newline cs r (us ++ (ts ++ vs)) after) (hts : ts ≠ []) :
    Cut (pre ++ (cs ++ post)) ts := by
  obtain ⟨t, ts, rfl⟩ := List.exists_cons_of_ne_nil hts
  rw [List.cons_append] at h
  obtain ⟨w, rest, newline', rfl, hfrom⟩ := h.from_any
  obtain ⟨blanks, rest, newline', rfl, hfirst, hstart⟩ := hfrom.from_token
  rw [← List.cons_append] at hfirst
  obtain ⟨mid, rest, rfl, hscans, hstop⟩ := hfirst.upto (by simp)
  have hpos : byteLength pre + byteLength w + byteLength blanks =
      byteLength (pre ++ (w ++ blanks)) := by
    rw [byteLength_append, byteLength_append, Nat.add_assoc]
  rw [hpos] at hscans hstart hstop
  refine ⟨pre ++ (w ++ blanks), mid, rest ++ post, by simp, ⟨newline', ?_⟩, ?_, hstop⟩
  · exact hscans.milder (by simp [Milder])
  · rw [List.head?_cons, Option.map_some, hstart]

theorem Cut.part (h : Cut source (us ++ (ts ++ vs))) (hts : ts ≠ []) : Cut source ts := by
  obtain ⟨pre, mid, post, rfl, ⟨newline, hscans⟩, -, -⟩ := h
  exact hscans.cut hts

theorem cut_of_lexed {text : String} {last : Token}
    (h : Lexed.ofString 0 text = ⟨us ++ (ts ++ vs), .ok last⟩) (hts : ts ≠ []) :
    Cut text.toList ts := by
  obtain ⟨after, hscans, -⟩ := lexed_iff.1 h
  have hcut := @Scans.cut ts us vs [] text.toList [] [] _ _ hscans hts
  rwa [List.append_nil] at hcut

/-- Where the text of a hole stands in the text that holds it. -/
def RawHole.Within (h : RawHole) (pos : Nat) (cs : List Char) : Prop :=
  ∃ pre post, cs = pre ++ (h.text.toList ++ post) ∧ h.start = pos + byteLength pre

theorem RawHole.Within.after {h : RawHole} {pos : Nat} {pre cs : List Char}
    (hw : h.Within (pos + byteLength pre) cs) : h.Within pos (pre ++ cs) := by
  obtain ⟨w, post, rfl, hstart⟩ := hw
  refine ⟨pre ++ w, post, by rw [List.append_assoc], ?_⟩
  rw [hstart, byteLength_append, Nat.add_assoc]

theorem RawHole.Within.before {h : RawHole} {pos : Nat} {cs : List Char}
    (hw : h.Within pos cs) (post : List Char) : h.Within pos (cs ++ post) := by
  obtain ⟨w, rest, rfl, hstart⟩ := hw
  exact ⟨w, rest ++ post, by simp, hstart⟩

theorem RawHole.read_within {dollar n : Nat} {cs : List Char} {h : RawHole}
    (hr : RawHole.read dollar cs = .ok (h, n)) : h.Within (dollar + 1) cs := by
  unfold RawHole.read at hr
  split at hr
  · rename_i body
    split at hr
    · rename_i m _
      obtain ⟨rfl, -⟩ := Prod.mk.inj (Except.ok.inj hr)
      refine ⟨['{'], body.drop (m - 1), ?_, rfl⟩
      rw [String.toList_ofList, List.take_append_drop]
      rfl
    · cases hr
  · split at hr
    · cases hr
    · obtain ⟨rfl, -⟩ := Prod.mk.inj (Except.ok.inj hr)
      refine ⟨[], cs.drop (RawHole.nameLength cs), ?_, rfl⟩
      rw [String.toList_ofList, List.take_append_drop]
      rfl

/-- A hole with braces is what is measured after the first of them. -/
theorem RawHole.read_expr {dollar n : Nat} {cs : List Char} {h : RawHole}
    (hr : RawHole.read dollar cs = .ok (h, n)) (hk : h.kind = .expr) :
    ∃ rest m, cs = '{' :: rest ∧ holeLength rest = .ok m ∧
      h = ⟨.expr, String.ofList (rest.take (m - 1)), dollar⟩ := by
  unfold RawHole.read at hr
  split at hr
  · rename_i rest
    split at hr
    · rename_i m hlength
      exact ⟨rest, m, rfl, hlength, (Prod.mk.inj (Except.ok.inj hr)).1.symm⟩
    · cases hr
  · split at hr
    · cases hr
    · obtain ⟨rfl, -⟩ := Prod.mk.inj (Except.ok.inj hr)
      cases hk

/-- A hole without braces is the name at the front. -/
theorem RawHole.read_path {dollar n : Nat} {cs : List Char} {h : RawHole}
    (hr : RawHole.read dollar cs = .ok (h, n)) (hk : h.kind = .name) :
    0 < RawHole.nameLength cs ∧ h.text = String.ofList (cs.take (RawHole.nameLength cs)) := by
  unfold RawHole.read at hr
  split at hr
  · split at hr
    · obtain ⟨rfl, -⟩ := Prod.mk.inj (Except.ok.inj hr)
      cases hk
    · cases hr
  · split at hr
    · cases hr
    · rename_i hlength
      obtain ⟨rfl, -⟩ := Prod.mk.inj (Except.ok.inj hr)
      exact ⟨Nat.pos_of_ne_zero hlength, rfl⟩

/-- Behind a dollar sign in a text at byte position `pos`, this hole is read. -/
def RawHole.Found (h : RawHole) (pos : Nat) (cs : List Char) : Prop :=
  ∃ pre rest n, cs = pre ++ '$' :: rest ∧ RawHole.read (pos + byteLength pre) rest = .ok (h, n)

theorem RawHole.Found.after {h : RawHole} {pos : Nat} {pre cs : List Char}
    (hf : h.Found (pos + byteLength pre) cs) : h.Found pos (pre ++ cs) := by
  obtain ⟨w, rest, n, rfl, hread⟩ := hf
  refine ⟨pre ++ w, rest, n, by rw [List.append_assoc], ?_⟩
  rwa [byteLength_append, ← Nat.add_assoc]

theorem RawHole.Found.within {h : RawHole} {pos : Nat} {cs : List Char} (hf : h.Found pos cs) :
    h.Within pos cs := by
  obtain ⟨pre, rest, n, rfl, hread⟩ := hf
  exact RawHole.Within.after (@RawHole.Within.after h _ ['$'] rest (RawHole.read_within hread))

/-- The holes among the atoms of a body are found in it. -/
theorem Piece.atoms_found {form : StringForm} {skip pos : Nat} {cs : List Char} {as : List Atom}
    {h : RawHole} (ha : atoms form skip pos cs = .ok as) (hh : .hole h ∈ as) : h.Found pos cs := by
  fun_induction atoms form skip pos cs generalizing as with
  | case1 =>
    cases ha
    cases hh
  | case2 pos c cs k ih => exact @RawHole.Found.after h pos [c] cs (ih ha hh)
  | case3 => cases ha
  | case4 pos c hc e rest d hd ih =>
    obtain ⟨as, has, rfl⟩ := map_eq_ok.1 ha
    have hin := ih has (by simpa using hh)
    have hsize : pos + 1 + e.utf8Size = pos + byteLength [c, e] := by
      obtain rfl : c = '\\' := by simpa using ((Bool.and_eq_true _ _).mp hc).1
      simp only [byteLength, Nat.add_zero, Nat.add_assoc]
      rfl
    rw [hsize] at hin
    exact @RawHole.Found.after h pos [c, e] rest hin
  | case5 => cases ha
  | case6 => cases ha
  | case7 pos c cs hc hdollar x n hread ih =>
    obtain ⟨as, has, rfl⟩ := map_eq_ok.1 ha
    obtain rfl : c = '$' := by simpa using ((Bool.and_eq_true _ _).mp hdollar).1
    rcases List.mem_cons.1 hh with hx | hh
    · obtain rfl := Atom.hole.inj hx
      exact ⟨[], cs, n, rfl, hread⟩
    · exact @RawHole.Found.after h pos ['$'] cs (ih has hh)
  | case8 pos c cs hc hdollar ih =>
    obtain ⟨as, has, rfl⟩ := map_eq_ok.1 ha
    exact @RawHole.Found.after h pos [c] cs (ih has (by simpa using hh))

theorem Piece.atoms_within {form : StringForm} {skip pos : Nat} {cs : List Char} {as : List Atom}
    {h : RawHole} (ha : atoms form skip pos cs = .ok as) (hh : .hole h ∈ as) : h.Within pos cs :=
  (atoms_found ha hh).within

theorem StringForm.body_split {form : StringForm} {cs : List Char} (h : form.opener <+: cs) :
    ∃ post, cs = form.opener ++ (form.body cs ++ post) := by
  obtain ⟨rest, rfl⟩ := h
  unfold StringForm.body
  generalize (form.opener ++ rest).length - form.closer.length = k
  by_cases hk : form.opener.length ≤ k
  · refine ⟨rest.drop (k - form.opener.length), ?_⟩
    rw [List.take_append, List.take_of_length_le hk, List.drop_left, List.take_append_drop]
  · refine ⟨rest, ?_⟩
    have hlength : ((form.opener ++ rest).take k).length ≤ form.opener.length := by
      rw [List.length_take]
      omega
    rw [List.drop_eq_nil_of_le hlength, List.nil_append]

/-- A hole is found in the body of its literal. -/
theorem decode_found {literal : String} {start : Nat} {d : Decoded} {h : RawHole}
    {form : StringForm} (ho : (StringForm.opening? literal.toList).getD .double = form)
    (hd : decode literal start = .ok d) (hh : .hole h ∈ d.pieces) :
    h.Found (start + byteLength form.opener) (form.body literal.toList) := by
  unfold decode at hd
  rw [ho] at hd
  dsimp only at hd
  split at hd
  · rename_i as ha
    obtain rfl := Except.ok.inj hd
    exact Piece.atoms_found ha (Piece.hole_of_join hh)
  · cases hd

/-- A hole stands in its literal, where the literal begins with the opener of its form. -/
theorem decode_within {literal : String} {start : Nat} {d : Decoded} {h : RawHole}
    {form : StringForm} (ho : StringForm.opening? literal.toList = some form)
    (hd : decode literal start = .ok d) (hh : .hole h ∈ d.pieces) :
    h.Within start literal.toList := by
  have hin := (decode_found (by rw [ho, Option.getD_some]) hd hh).within
  obtain ⟨post, hliteral⟩ := StringForm.body_split (StringForm.opening?_isPrefix ho)
  rw [hliteral]
  exact (hin.before post).after

/-- The tokens of a hole are cut from the source that its literal is cut from. -/
theorem Cut.hole {ws : List Token} {last : Token} {d : Decoded} {h : RawHole}
    (hcut : Cut source ws) (ht : t ∈ ws) (hk : t.kind.isString = true)
    (hd : decode t.text t.start = .ok d) (hh : .hole h ∈ d.pieces)
    (hl : Lexed.ofString h.start h.text = ⟨us ++ (ts ++ vs), .ok last⟩) (hts : ts ≠ []) :
    Cut source ts := by
  obtain ⟨pre, mid, post, rfl, ⟨newline, hscans⟩, -, -⟩ := hcut
  obtain ⟨⟨a, b, rfl, hstart⟩, hread⟩ := hscans.mem ht
  obtain ⟨form, ho, -⟩ := hread.string hk
  obtain ⟨c, e, htext, hhole⟩ := decode_within ho hd hh
  obtain ⟨after, hin, -⟩ := lexed_iff.1 hl
  have hpos : h.start = byteLength (pre ++ (a ++ c)) := by
    rw [hhole, hstart, byteLength_append, byteLength_append, Nat.add_assoc]
  rw [hpos] at hin
  have hcut := @Scans.cut ts us vs (pre ++ (a ++ c)) h.text.toList (e ++ (b ++ post)) [] _ _ hin hts
  rw [show t.text.toList = c ++ (h.text.toList ++ e) from htext]
  simpa using hcut

end Script
