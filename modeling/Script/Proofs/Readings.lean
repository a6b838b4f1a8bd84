import Script.Proofs.Brackets
import Script.Proofs.Extents
import Script.Proofs.Nodes.Expression
import Script.Rules.Reading

/-!
Tokens that are read at one go stand one after the other and have distinct positions. So a part of
them is told by its span, and a token by where it starts.
-/
namespace Script

open Token

variable {t u : Token} {ts : List Token}

theorem Token.Sorted.within (h : Sorted ts) (ht : t ∈ ts) :
    (spanOf ts).start ≤ t.start ∧ t.stop ≤ (spanOf ts).stop := by
  obtain ⟨u, us, rfl⟩ := List.exists_cons_of_ne_nil (List.ne_nil_of_mem ht)
  obtain ⟨v, hv⟩ : ∃ v, (u :: us).getLast? = some v :=
    ⟨_, List.getLast?_eq_some_getLast (List.cons_ne_nil u us)⟩
  rw [h.spanOf_eq rfl hv]
  refine ⟨h.start_le t ht, ?_⟩
  obtain ⟨vs, hvs⟩ := List.getLast?_eq_some_iff.1 hv
  rw [hvs] at h ht
  exact h.le_stop t ht

/-- Two tokens are the same one, or one of them ends before the other begins. -/
theorem Token.Sorted.apart (h : Sorted ts) (ht : t ∈ ts) (hu : u ∈ ts) :
    t = u ∨ t.stop ≤ u.start ∨ u.stop ≤ t.start := by
  obtain ⟨a, b, rfl⟩ := List.append_of_mem ht
  obtain ⟨-, hb, hab⟩ := List.pairwise_append.1 h
  rcases List.mem_append.1 hu with hu | hu
  · exact .inr (.inr (hab u hu t List.mem_cons_self))
  · rcases List.mem_cons.1 hu with rfl | hu
    · exact .inl rfl
    · exact .inr (.inl ((List.pairwise_cons.1 hb).1 u hu))

/-- No two tokens begin at the same position. -/
theorem Token.Sorted.nodup (h : Sorted ts) (hsize : ∀ t ∈ ts, 0 < t.text.utf8ByteSize) :
    (ts.map Token.start).Nodup := by
  refine List.pairwise_map.2 (List.Pairwise.imp_of_mem (fun {t u} ht _ htu heq => ?_) h)
  have hle : t.start + t.text.utf8ByteSize ≤ u.start := htu
  have := hsize t ht
  omega

/-- A token is the only one at its position. -/
theorem Token.Sorted.others {before after : List Token} (h : Sorted (before ++ u :: after))
    (hsize : ∀ t ∈ before ++ u :: after, 0 < t.text.utf8ByteSize) :
    ∀ t ∈ before ++ after, t.start ≠ u.start := by
  obtain ⟨-, hafter, hbefore⟩ := List.pairwise_append.1 h
  intro t ht heq
  rcases List.mem_append.1 ht with ht | ht
  · have hle : t.start + t.text.utf8ByteSize ≤ u.start := hbefore t ht u List.mem_cons_self
    have := hsize t (List.mem_append_left _ ht)
    omega
  · have hle : u.start + u.text.utf8ByteSize ≤ t.start := (List.pairwise_cons.1 hafter).1 t ht
    have := hsize u (by simp)
    omega

/-- A token that no bracket stands around is the only one at its position. -/
theorem Token.Sorted.shallow {a b : List Token} (h : Sorted (a ++ t :: b))
    (hsize : ∀ u ∈ a ++ t :: b, 0 < u.text.utf8ByteSize) (ha : unclosed a = []) :
    Shallow t.start (a ++ t :: b) := by
  intro a' u b' hab hk
  have hbefore : ∀ {a w b : List Token} {t u : Token}, Sorted (a ++ t :: (w ++ u :: b)) →
      t.start + t.text.utf8ByteSize ≤ u.start := by
    intro a w b t u h
    exact (List.pairwise_cons.1 (List.pairwise_append.1 h).2.1).1 u (by simp)
  rcases List.append_eq_append_iff.1 hab with ⟨w, rfl, hw⟩ | ⟨w, rfl, hw⟩
  · cases w with
    | nil => rwa [List.append_nil]
    | cons v w =>
      obtain ⟨rfl, rfl⟩ := List.cons.inj hw
      have := hbefore h
      have := hsize t (by simp)
      omega
  · cases w with
    | nil => rwa [List.append_nil] at ha
    | cons v w =>
      obtain ⟨rfl, rfl⟩ := List.cons.inj hw
      rw [List.append_assoc] at h
      have := hbefore h
      have := hsize u (by simp)
      omega

/-- Tokens among those that are read at one go. -/
def Lexed.Part (source : String) (ts : List Token) : Prop :=
  ∃ before after, Reading source (before ++ (ts ++ after))

namespace Lexed

variable {source : String}

theorem hereditary_part (source : String) : Hereditary (Part source) where
  part := by
    rintro us ts vs ⟨before, after, h⟩
    exact ⟨before ++ us, vs ++ after, by simpa using h⟩
  hole := by
    rintro t ts d h us last ⟨before, after, hr⟩ ht hk hd hh hl
    refine ⟨[], [], ?_⟩
    rw [List.nil_append, List.append_nil]
    exact .hole hr (List.mem_append_right _ (List.mem_append_left _ ht)) hk hd hh hl

theorem Reading.lexed (h : Reading source ts) :
    ∃ base text last, ofString base text = ⟨ts, .ok last⟩ := by
  cases h with
  | whole h => exact ⟨_, _, _, h⟩
  | hole _ _ _ _ _ hl => exact ⟨_, _, _, hl⟩

/-- Tokens that are read at one go stand one after the other, and none is empty. -/
theorem Part.placed (h : Part source ts) :
    Sorted ts ∧ ∀ t ∈ ts, 0 < t.text.utf8ByteSize := by
  obtain ⟨before, after, hr⟩ := h
  obtain ⟨base, text, last, hl⟩ := hr.lexed
  obtain ⟨newline, hscans, -⟩ := lexed_iff.1 hl
  refine ⟨?_, fun t ht => (hscans.mem ?_).2.size⟩
  · exact (List.pairwise_append.1 (List.pairwise_append.1 hscans.sorted).2.1).1
  · exact List.mem_append_right _ (List.mem_append_left _ ht)

end Lexed

end Script
