import Script.Bytes.Checked

/-!
Slices that there are. A text that is put together from parts can be cut where the parts meet, and
its bytes are the bytes of its characters, of which only an ASCII character has a byte below 128.
-/
namespace Script.Bytes

open Chars (byteLength byteLength_append)

variable {a b c d cs : List Char} {i j n : Nat}

theorem sub_ok (h : j ≤ i) : sub i j = .ok (i - j) := if_pos h

theorem span_ok (h : i ≤ j) : span i j = .ok ⟨i, j⟩ := if_pos h

theorem splitAt_append (a b : List Char) : splitAt (byteLength a) (a ++ b) = .ok (a, b) := by
  induction a with
  | nil => cases b <;> rfl
  | cons c a ih =>
    obtain ⟨k, hk⟩ := Nat.exists_eq_add_of_lt c.utf8Size_pos
    have hsum : byteLength (c :: a) = (k + byteLength a) + 1 := by
      rw [byteLength]
      omega
    have hrest : k + byteLength a + 1 - c.utf8Size = byteLength a := by omega
    rw [hsum, List.cons_append, splitAt, if_pos (by omega), hrest, ih]
    rfl

theorem sliceFrom_append (h : i = byteLength a) : sliceFrom i (a ++ b) = .ok b := by
  rw [h, sliceFrom, splitAt_append]
  rfl

theorem slice_append (hi : i = byteLength a) (hj : j = byteLength a + byteLength b) :
    slice i j (a ++ (b ++ c)) = .ok b := by
  have hsize : byteLength a + byteLength b - byteLength a = byteLength b := by omega
  subst hi
  subst hj
  rw [slice, if_pos (Nat.le_add_right _ _), sliceFrom_append rfl, hsize]
  show Prod.fst <$> splitAt (byteLength b) (b ++ c) = .ok b
  rw [splitAt_append]
  rfl

theorem bump_append (h : i + n = byteLength a) : bump (a ++ b) i n = .ok (i + n) := by
  rw [bump, h, splitAt_append]
  rfl

/-! The bytes of characters. -/

theorem ofChars_cons (x : Char) (cs : List Char) :
    ofChars (x :: cs) = String.utf8EncodeChar x ++ ofChars cs := rfl

theorem ofChars_append (a b : List Char) : ofChars (a ++ b) = ofChars a ++ ofChars b :=
  List.flatMap_append

theorem length_ofChars (cs : List Char) : (ofChars cs).length = byteLength cs := by
  induction cs with
  | nil => rfl
  | cons c cs ih =>
    rw [ofChars_cons, List.length_append, ih, String.length_utf8EncodeChar, byteLength]

/-- A byte of a character that is not ASCII. -/
def Outer (b : UInt8) : Prop := 128 ≤ b.toNat

theorem encode_outer {x : Char} (h : 1 < x.utf8Size) : ∀ b ∈ String.utf8EncodeChar x, Outer b := by
  have hbyte : ∀ v m k : Nat, 128 ≤ k → 0 < m → m + k ≤ 256 → Outer (UInt8.ofNat (v % m + k)) := by
    intro v m k hk hm hsum
    have := Nat.mod_lt v hm
    rw [Outer, UInt8.toNat_ofNat']
    omega
  rw [← String.length_utf8EncodeChar] at h
  unfold String.utf8EncodeChar at h ⊢
  dsimp only at h ⊢
  split at h
  · simp at h
  rw [if_neg ‹_›]
  repeat' split
  all_goals
    simp only [List.forall_mem_cons, List.not_mem_nil, false_implies, implies_true, and_true]
    repeat' apply And.intro
    all_goals exact hbyte _ _ _ (by decide) (by decide) (by decide)

theorem encode_ascii {x : Char} (h : x.utf8Size = 1) : String.utf8EncodeChar x = [x.toUInt8] :=
  String.utf8EncodeChar_eq_singleton h

theorem toUInt8_toNat {x : Char} (h : x.utf8Size = 1) :
    x.toUInt8.toNat = x.toNat ∧ x.toNat < 128 := by
  rw [Char.utf8Size_eq_one_iff, UInt32.le_iff_toNat_le] at h
  have hlt : x.toNat < 128 := Nat.lt_succ_of_le h
  refine ⟨?_, hlt⟩
  show x.toNat % 256 = x.toNat
  exact Nat.mod_eq_of_lt (by omega)

theorem toUInt8_inj {x y : Char} (hx : x.utf8Size = 1) (hy : y.utf8Size = 1) :
    x.toUInt8 = y.toUInt8 ↔ x = y := by
  refine ⟨fun h => ?_, congrArg _⟩
  have hnat := congrArg UInt8.toNat h
  rw [(toUInt8_toNat hx).1, (toUInt8_toNat hy).1] at hnat
  exact Char.toNat_inj.1 hnat

end Script.Bytes
