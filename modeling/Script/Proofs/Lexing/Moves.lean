import Script.Proofs.Lexing.Scans

/-!
Texts at other positions. A text is lexed and taken apart in the same way wherever it stands, so
that moving it moves its tokens and its holes and changes nothing else. The positions move as a map
tells, which must keep the distances within the text.
-/
namespace Script

open Chars Lexeme

/-- A map of positions that keeps the distances to all positions after this one. -/
def RigidAt (σ : Nat → Nat) (pos : Nat) : Prop := ∀ n, σ (pos + n) = σ pos + n

theorem RigidAt.add {σ : Nat → Nat} {pos : Nat} (h : RigidAt σ pos) (k : Nat) :
    RigidAt σ (pos + k) := by
  intro n
  rw [Nat.add_assoc, h, h, Nat.add_assoc]

theorem rigidAt_add (k pos : Nat) : RigidAt (· + k) pos := by
  intro n
  show pos + n + k = pos + k + n
  omega

theorem rigidAt_sub {k pos : Nat} (h : k ≤ pos) : RigidAt (· - k) pos := by
  intro n
  show pos + n - k = pos - k + n
  omega

/-- Positions from `k` on, told from the position `pos`. -/
theorem rigidAt_place {k pos i : Nat} (h : k ≤ i) : RigidAt (fun i => i - k + pos) i := by
  intro n
  show i + n - k + pos = i - k + pos + n
  omega

def Token.move (σ : Nat → Nat) (t : Token) : Token := { t with start := σ t.start }

def Span.move (σ : Nat → Nat) (s : Span) : Span := ⟨σ s.start, σ s.stop⟩

def RawHole.move (σ : Nat → Nat) (h : RawHole) : RawHole := { h with dollar := σ h.dollar }

namespace Piece

def Atom.move (σ : Nat → Nat) : Atom → Atom
  | .char c => .char c
  | .hole h => .hole (h.move σ)

def move (σ : Nat → Nat) : Piece → Piece
  | .text s => .text s
  | .hole h => .hole (h.move σ)

end Piece

/-- Tokens that a map of positions moves as a whole. -/
def RigidOn (σ : Nat → Nat) (ts : List Token) : Prop := ∀ t ∈ ts, RigidAt σ t.start

variable {σ : Nat → Nat}

theorem Token.move_span {t : Token} (h : RigidAt σ t.start) : (t.move σ).span = t.span.move σ := by
  simp [Token.span, Token.stop, Token.move, Span.move, h t.text.utf8ByteSize]

theorem RawHole.move_start {h : RawHole} (hd : RigidAt σ h.dollar) : (h.move σ).start = σ h.start := by
  obtain ⟨kind, text, dollar⟩ := h
  cases kind with
  | name => exact (hd 1).symm
  | expr => exact (hd 2).symm

namespace Scans

variable {pos : Nat} {newline after : Bool} {cs r : List Char} {ts : List Token}

theorem move (h : Scans pos newline cs r ts after) (hσ : RigidAt σ pos) :
    Scans (σ pos) newline cs r (ts.map (Token.move σ)) after ∧ RigidOn σ ts := by
  induction h with
  | done => exact ⟨.done, nofun⟩
  | blank hc _ ih =>
    obtain ⟨h, hts⟩ := ih (hσ.add _)
    rw [hσ] at h
    exact ⟨.blank hc h, hts⟩
  | comment hc hs _ ih =>
    obtain ⟨h, hts⟩ := ih (hσ.add _)
    rw [hσ] at h
    exact ⟨.comment hc hs h, hts⟩
  | token hs _ ih =>
    obtain ⟨h, hts⟩ := ih (hσ.add _)
    rw [hσ] at h
    exact ⟨.token hs h, List.forall_mem_cons.2 ⟨hσ, hts⟩⟩

end Scans

theorem Lexed.ofString_move {base : Nat} {text : String} {ts : List Token} {last : Token}
    (h : Lexed.ofString base text = ⟨ts, .ok last⟩) (hσ : RigidAt σ base) :
    Lexed.ofString (σ base) text = ⟨ts.map (Token.move σ), .ok (last.move σ)⟩ ∧ RigidOn σ ts := by
  obtain ⟨after, hscans, rfl⟩ := lexed_iff.1 h
  obtain ⟨hmoved, hts⟩ := hscans.move hσ
  refine ⟨lexed_iff.2 ⟨after, hmoved, ?_⟩, hts⟩
  rw [Token.move, ← hσ]
  rfl

theorem RawHole.read_move {dollar n : Nat} {cs : List Char} {h : RawHole}
    (hr : RawHole.read dollar cs = .ok (h, n)) (dollar' : Nat) :
    RawHole.read dollar' cs = .ok ({ h with dollar := dollar' }, n) ∧ h.dollar = dollar := by
  unfold RawHole.read at hr ⊢
  split at hr
  · split at hr
    · obtain ⟨rfl, rfl⟩ := Prod.mk.inj (Except.ok.inj hr)
      exact ⟨rfl, rfl⟩
    · cases hr
  · split at hr
    · cases hr
    · rename_i hlength
      obtain ⟨rfl, rfl⟩ := Prod.mk.inj (Except.ok.inj hr)
      rw [if_neg hlength]
      exact ⟨rfl, rfl⟩

namespace Piece

theorem atoms_move {form : StringForm} {skip pos : Nat} {cs : List Char} {as : List Atom}
    (ha : atoms form skip pos cs = .ok as) (hσ : RigidAt σ pos) :
    atoms form skip (σ pos) cs = .ok (as.map (Atom.move σ)) ∧
      ∀ h, .hole h ∈ as → RigidAt σ h.dollar := by
  fun_induction atoms form skip pos cs generalizing as with
  | case1 =>
    cases ha
    exact ⟨rfl, by simp⟩
  | case2 pos c cs k ih =>
    rw [atoms, ← hσ]
    exact ih ha (hσ.add _)
  | case3 => cases ha
  | case4 pos c hc e rest d hd ih =>
    obtain ⟨as, has, rfl⟩ := map_eq_ok.1 ha
    obtain ⟨hmoved, hholes⟩ := ih has ((hσ.add 1).add _)
    rw [hσ.add 1, hσ] at hmoved
    rw [atoms, if_pos hc]
    simp only [hd, hmoved]
    exact ⟨rfl, by simpa using hholes⟩
  | case5 => cases ha
  | case6 => cases ha
  | case7 pos c cs hc hdollar h n hread ih =>
    obtain ⟨as, has, rfl⟩ := map_eq_ok.1 ha
    obtain ⟨hmoved, hholes⟩ := ih has (hσ.add _)
    rw [hσ] at hmoved
    obtain ⟨hread', rfl⟩ := RawHole.read_move hread (σ pos)
    rw [atoms.eq_def]
    simp only [if_neg hc, if_pos hdollar, hread', hmoved]
    refine ⟨rfl, fun x hx => ?_⟩
    rcases List.mem_cons.1 hx with hx | hx
    · obtain rfl := Atom.hole.inj hx
      exact hσ
    · exact hholes x hx
  | case8 pos c cs hc hdollar ih =>
    obtain ⟨as, has, rfl⟩ := map_eq_ok.1 ha
    obtain ⟨hmoved, hholes⟩ := ih has (hσ.add _)
    rw [hσ] at hmoved
    rw [atoms.eq_def]
    simp only [if_neg hc, if_neg hdollar, hmoved]
    exact ⟨rfl, by simpa using hholes⟩

theorem join_move (as : List Atom) (run : List Char) :
    join run (as.map (Atom.move σ)) = (join run as).map (move σ) := by
  have hrun : ∀ run, (ofRun run).map (move σ) = ofRun run := by
    intro run
    unfold ofRun
    split <;> rfl
  induction as generalizing run with
  | nil => exact (hrun run).symm
  | cons a as ih =>
    cases a with
    | char c => exact ih (c :: run)
    | hole h =>
      simp only [List.map_cons, Atom.move, join, List.map_append, hrun, ih]
      rfl

end Piece

/-- A literal is taken apart in the same way wherever it stands. -/
theorem decode_move {literal : String} {start : Nat} {d : Decoded}
    (hd : decode literal start = .ok d) (hσ : RigidAt σ start) :
    decode literal (σ start) = .ok ⟨d.form, d.pieces.map (Piece.move σ)⟩ ∧
      ∀ h, .hole h ∈ d.pieces → RigidAt σ h.dollar := by
  unfold decode at hd ⊢
  dsimp only at hd ⊢
  split at hd
  · rename_i as ha
    obtain rfl := Except.ok.inj hd
    obtain ⟨hmoved, hholes⟩ := Piece.atoms_move ha (hσ.add _)
    rw [hσ] at hmoved
    rw [hmoved, ← Piece.join_move]
    exact ⟨rfl, fun h hh => hholes h (Piece.hole_of_join hh)⟩
  · cases hd

end Script
