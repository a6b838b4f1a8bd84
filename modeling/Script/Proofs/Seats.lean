import Script.Proofs.Balanced
import Script.Proofs.Complete.Statement
import Script.Proofs.Lexing.Cuts
import Script.Proofs.Readings
import Script.Proofs.Rebroken
import Script.Tree.Lines

/-!
Where the parts of a program stand. The tokens of a part stand among those of the source, in whose
place any other tokens could stand that are written in the same way, or they stand in the hole of a
string. Where line breaks end nothing, the innermost bracket around them is that of a group.
-/
namespace Script

open Token

/-- A source that is read as a program, with its tokens. -/
structure Accepted where
  source : String
  program : Program
  tokens : List Token
  last : Token
  lexed : Lexed.ofString 0 source = ⟨tokens, .ok last⟩
  written : program.Written (tokens ++ [last])

theorem Program.accepted {source : String} {p : Program} {ts : List Token} {last : Token}
    (h : parse source = .ok p) (hl : Lexed.ofString 0 source = ⟨ts, .ok last⟩) :
    ∃ x : Accepted, x.source = source ∧ x.program = p ∧ x.tokens = ts ∧ x.last = last := by
  obtain ⟨us, last', hl', hp⟩ := parse_iff.1 h
  obtain ⟨rfl, hlast⟩ := Lexed.mk.inj (hl.symm.trans hl')
  obtain rfl := Except.ok.inj hlast
  exact ⟨⟨source, p, ts, last, hl, hp⟩, rfl, rfl, rfl, rfl⟩

theorem Accepted.placed (x : Accepted) :
    Sorted x.tokens ∧ ∀ t ∈ x.tokens, 0 < t.text.utf8ByteSize :=
  Lexed.Part.placed ⟨[], [], by simpa using .whole x.lexed⟩

/-- The innermost bracket that is open behind some tokens is that of a group. -/
def Program.InGroup (p : Program) (before : List Token) : Prop :=
  ∃ o, (unclosed before).head? = some o ∧ p.OpensGroup o

/-- Where tokens stand that are written as `w` says. -/
inductive Seat (x : Accepted) (s : Surroundings) (ts : List Token) (w : List Token → Prop) : Prop
  | whole {before after : List Token} (hall : x.tokens = before ++ (ts ++ after))
      (hgroup : s.breakEnds = false → x.program.InGroup before)
      (hplug : ∀ us, Rebroken ts us → w us →
        x.program.Written (before ++ (us ++ after) ++ [x.last]))
  | hole {v : Token} {before after : List Token} (hv : v ∈ x.tokens)
      (hk : v.kind.isString = true) (hr : Lexed.Reading x.source (before ++ (ts ++ after)))
      (hin : ∀ t ∈ before ++ (ts ++ after), v.start ≤ t.start ∧ t.stop ≤ v.stop)

/-- The tokens of a hole stand inside the literal that holds them. -/
theorem Lexed.hole_inside {base : Nat} {text : String} {ts us : List Token} {t last last' : Token}
    {d : Decoded} {h : RawHole} (hl : ofString base text = ⟨ts, .ok last⟩) (ht : t ∈ ts)
    (hk : t.kind.isString = true) (hd : decode t.text t.start = .ok d) (hh : .hole h ∈ d.pieces)
    (hl' : ofString h.start h.text = ⟨us, .ok last'⟩) :
    ∀ u ∈ us, t.start ≤ u.start ∧ u.stop ≤ t.stop := by
  obtain ⟨after, hscans, -⟩ := lexed_iff.1 hl
  obtain ⟨form, ho, -⟩ := (hscans.mem ht).2.string hk
  obtain ⟨pre, post, htext, hstart⟩ := decode_within ho hd hh
  have htext : t.text.toList = _ := htext
  have hsize : t.text.utf8ByteSize = Chars.byteLength pre + (h.text.utf8ByteSize +
      Chars.byteLength post) := by
    rw [← Chars.byteLength_toList, htext, Chars.byteLength_append, Chars.byteLength_append,
      Chars.byteLength_toList]
  intro u hu
  have hinside := Lexed.inside hl' hu
  show _ ∧ _ ≤ t.start + t.text.utf8ByteSize
  omega

namespace Seat

variable {x : Accepted} {s s' : Surroundings} {t u : Token} {ts us : List Token}
  {v w : List Token → Prop}

theorem imp (h : Seat x s ts v) (hs : s'.breakEnds = false → s.breakEnds = false)
    (hw : ∀ us, Rebroken ts us → w us → v us) : Seat x s' ts w := by
  cases h with
  | whole hall hgroup hplug =>
    exact .whole hall (fun h => hgroup (hs h)) fun us hre h => hplug us hre (hw us hre h)
  | hole hv hk hr hin => exact .hole hv hk hr hin

theorem left (h : Seat x s (ts ++ us) v) : Seat x s ts fun r => v (r ++ us) := by
  cases h with
  | @whole before after hall hgroup hplug =>
    refine @Seat.whole _ _ _ _ before (us ++ after) (by simpa using hall) hgroup
      fun r hre hr => ?_
    simpa using hplug (r ++ us) (hre.left us) hr
  | @hole _ before after hv hk hr hin =>
    exact @Seat.hole _ _ _ _ _ before (us ++ after) hv hk (by simpa using hr) (by simpa using hin)

/-- What stands on the right of other tokens, where the innermost bracket is that of a group unless
line breaks end something. -/
theorem behind (h : Seat x s (ts ++ us) v)
    (hs : s'.breakEnds = false → ∀ before, (s.breakEnds = false → x.program.InGroup before) →
      x.program.InGroup (before ++ ts)) :
    Seat x s' us fun r => v (ts ++ r) := by
  cases h with
  | @whole before after hall hgroup hplug =>
    refine @Seat.whole _ _ _ _ (before ++ ts) after (by simpa using hall)
      (fun h => hs h before hgroup) fun r hre hr => ?_
    simpa using hplug (ts ++ r) (hre.right ts) hr
  | @hole _ before after hv hk hr hin =>
    exact @Seat.hole _ _ _ _ _ (before ++ ts) after hv hk (by simpa using hr) (by simpa using hin)

theorem right (h : Seat x s (ts ++ us) v) (hts : Balanced ts) :
    Seat x s us fun r => v (ts ++ r) := by
  refine h.behind fun hs before hgroup => ?_
  obtain ⟨o, ho, hopens⟩ := hgroup hs
  refine ⟨o, ?_, hopens⟩
  rwa [unclosed, List.foldl_append, hts.foldl_enter]

theorem tail (h : Seat x s (t :: ts) v) (ht : t.kind.isOpener = false ∧ t.kind.isCloser = false) :
    Seat x s ts fun r => v (t :: r) :=
  @right x s [t] ts v h (.single ht.1 ht.2)

/-- In other brackets line breaks end what is in them, whatever stands before it there. -/
theorem item (h : Seat x s (ts ++ us) v) : Seat x .item us fun r => v (ts ++ r) := h.behind nofun

theorem inside (h : Seat x s (t :: ts) v) : Seat x .item ts fun r => v (t :: r) :=
  @item x s [t] ts v h

/-- What stands in the parentheses of a group. -/
theorem group (h : Seat x s (t :: (ts ++ [u])) v) (ht : t.kind = .openParen)
    (hg : x.program.OpensGroup t) : Seat x .grouped ts fun r => v (t :: (r ++ [u])) := by
  refine (@behind x s .grouped [t] (ts ++ [u]) v h fun _ before _ => ⟨t, ?_, hg⟩).left
  rw [unclosed, List.foldl_append, List.foldl_cons, List.foldl_nil,
    enter_opener (by rw [ht]; rfl), List.head?_cons]

theorem inHole {d : Decoded} {h : RawHole} {last : Token} (hseat : Seat x s ts v) (ht : t ∈ ts)
    (hk : t.kind.isString = true) (hd : decode t.text t.start = .ok d) (hh : .hole h ∈ d.pieces)
    (hl : Lexed.ofString h.start h.text = ⟨us, .ok last⟩) : Seat x s' us w := by
  cases hseat with
  | @whole before after hall =>
    have ht' : t ∈ x.tokens := by
      rw [hall]
      exact List.mem_append_right _ (List.mem_append_left _ ht)
    refine @Seat.hole _ _ _ _ t [] [] ht' hk ?_ ?_
    · simpa using .hole (.whole x.lexed) ht' hk hd hh hl
    · simpa using Lexed.hole_inside x.lexed ht' hk hd hh hl
  | @hole v before after hv hkv hr hin =>
    have ht' : t ∈ before ++ (ts ++ after) := List.mem_append_right _ (List.mem_append_left _ ht)
    obtain ⟨base, text, last', hl'⟩ := hr.lexed
    refine @Seat.hole _ _ _ _ v [] [] hv hkv ?_ ?_
    · simpa using .hole hr ht' hk hd hh hl
    · intro u hu
      have hinside := Lexed.hole_inside hl' ht' hk hd hh hl u (by simpa using hu)
      have := hin t ht'
      omega

end Seat

end Script
