import Script.Proofs.Lexing.Cuts

/-!
The holes of a string literal stand one after the other, since each takes its characters before the
next one is looked for.
-/
namespace Script

open Chars

/-- One hole ends before another one begins. -/
def RawHole.Before (h h' : RawHole) : Prop := h.inner.stop ≤ h'.start

/-- A hole ends with the last character that it takes, or before. -/
theorem RawHole.read_stop {dollar n : Nat} {cs : List Char} {h : RawHole}
    (hr : RawHole.read dollar cs = .ok (h, n)) :
    h.inner.stop ≤ dollar + 1 + byteLength (cs.take n) := by
  unfold RawHole.read at hr
  split at hr
  · rename_i body
    split at hr
    · rename_i m _
      obtain ⟨rfl, rfl⟩ := Prod.mk.inj (Except.ok.inj hr)
      have hle := byteLength_take_le (m - 1) (body.take m)
      rw [List.take_take, Nat.min_eq_left (Nat.sub_le m 1)] at hle
      simp only [inner, start, utf8ByteSize_ofList, List.take_succ_cons, byteLength]
      have : '{'.utf8Size = 1 := rfl
      omega
    · cases hr
  · split at hr
    · cases hr
    · obtain ⟨rfl, rfl⟩ := Prod.mk.inj (Except.ok.inj hr)
      simp only [inner, start, utf8ByteSize_ofList]
      omega

namespace Piece

def Atom.hole? : Atom → Option RawHole
  | .char _ => none
  | .hole h => some h

def hole? : Piece → Option RawHole
  | .text _ => none
  | .hole h => some h

theorem atoms_skip (form : StringForm) (skip pos : Nat) (cs : List Char) :
    atoms form skip pos cs = atoms form 0 (pos + byteLength (cs.take skip)) (cs.drop skip) := by
  induction cs generalizing skip pos with
  | nil => simp [atoms]
  | cons c cs ih =>
    cases skip with
    | zero => simp [byteLength]
    | succ k =>
      rw [atoms, ih, List.take_succ_cons, List.drop_succ_cons, byteLength, Nat.add_assoc]

theorem atoms_sorted {form : StringForm} {skip pos : Nat} {cs : List Char} {as : List Atom}
    (ha : atoms form skip pos cs = .ok as) :
    (as.filterMap Atom.hole?).Pairwise RawHole.Before := by
  fun_induction atoms form skip pos cs generalizing as with
  | case1 =>
    cases ha
    exact .nil
  | case2 _ _ _ _ ih => exact ih ha
  | case3 => cases ha
  | case4 _ _ _ _ _ _ _ ih =>
    obtain ⟨as, has, rfl⟩ := map_eq_ok.1 ha
    exact @ih as has
  | case5 => cases ha
  | case6 => cases ha
  | case7 pos _ cs _ _ h n hread ih =>
    obtain ⟨as, has, rfl⟩ := map_eq_ok.1 ha
    refine .cons (fun h' hh => ?_) (ih has)
    obtain ⟨a, hmem, hsome⟩ := List.mem_filterMap.1 hh
    cases a with
    | char => cases hsome
    | hole x =>
      obtain rfl := Option.some.inj hsome
      rw [atoms_skip] at has
      obtain ⟨pre, post, -, hstart⟩ := atoms_within has hmem
      have hstop := RawHole.read_stop hread
      rw [RawHole.Before]
      omega
  | case8 _ _ _ _ _ ih =>
    obtain ⟨as, has, rfl⟩ := map_eq_ok.1 ha
    exact @ih as has

theorem join_holes (run : List Char) (as : List Atom) :
    (join run as).filterMap hole? = as.filterMap Atom.hole? := by
  have hrun : ∀ run : List Char, (ofRun run).filterMap hole? = [] := by
    intro run
    unfold ofRun
    split <;> rfl
  induction as generalizing run with
  | nil => exact hrun run
  | cons a as ih =>
    cases a with
    | char c => exact ih (c :: run)
    | hole h =>
      rw [join, List.filterMap_append, hrun, List.nil_append]
      simp [hole?, Atom.hole?, ih]

end Piece

theorem decode_sorted {literal : String} {start : Nat} {d : Decoded}
    (hd : decode literal start = .ok d) :
    (d.pieces.filterMap Piece.hole?).Pairwise RawHole.Before := by
  unfold decode at hd
  dsimp only at hd
  split at hd
  · rename_i as ha
    obtain rfl := Except.ok.inj hd
    rw [Piece.join_holes]
    exact Piece.atoms_sorted ha
  · cases hd

end Script
