import Script.Proofs.Alone
import Script.Proofs.Early
import Script.Proofs.Lexing.Holes
import Script.Tree.Outline

/-!
Outlines over tokens. The nodes of a construct are laid over its tokens: each between the first and
the last token of some part, and one after the other. Where the tokens are cut from a source, a node
with the span of all of them has a proper place in it.
-/
namespace Script

open Chars Token

variable {source : String} {t : Token} {ts us : List Token}

namespace Outline

/-- One node ends before another one begins. -/
def Before (o p : Outline) : Prop := o.span.stop ≤ p.span.start

/-- A node with a place in a source: its span is not empty and begins and ends between characters,
its text stands there, and the nodes below it are inside, one after the other, and have their places
too. -/
inductive Proper (source : String) : Outline → Prop
  | mk {span : Span} {text : Option String} {children : List Outline}
      (hspan : span.start < span.stop ∧ span.stop ≤ source.utf8ByteSize)
      (hends : Program.Boundary source span.start ∧ Program.Boundary source span.stop)
      (htext : ∀ s ∈ text, span.text source = s)
      (hinside : ∀ c ∈ children, span.start ≤ c.span.start ∧ c.span.stop ≤ span.stop)
      (hsorted : children.Pairwise Before) (hchildren : ∀ c ∈ children, c.Proper source) :
      Proper source ⟨span, text, children⟩

/-- Nodes with places in a source, one after the other, and each within some of the tokens. -/
structure Laid (source : String) (ts : List Token) (os : List Outline) : Prop where
  proper : ∀ o ∈ os, o.Proper source
  sorted : os.Pairwise Before
  within : ∀ o ∈ os, ∃ t ∈ ts, ∃ u ∈ ts, t.start ≤ o.span.start ∧ o.span.stop ≤ u.stop

end Outline

/-- Tokens that are cut from a source, or none. -/
def Cuts (source : String) (ts : List Token) : Prop := ts ≠ [] → Cut source.toList ts

namespace Cuts

theorem hereditary (source : String) : Hereditary (Cuts source) := hereditary_cut source.toList

theorem left (h : Cuts source (ts ++ us)) : Cuts source ts := (hereditary source).left h

theorem right (h : Cuts source (ts ++ us)) : Cuts source us := (hereditary source).right h

theorem tail (h : Cuts source (t :: ts)) : Cuts source ts := (hereditary source).tail h

theorem head (h : Cuts source (t :: ts)) : Cuts source [t] := left h

theorem sorted (h : Cuts source ts) : Sorted ts := by
  cases ts with
  | nil => exact .nil
  | cons t ts =>
    obtain ⟨pre, mid, post, hcut⟩ := h (by simp)
    obtain ⟨newline, hscans⟩ := hcut.scans
    exact hscans.sorted

theorem text (h : Cuts source ts) (ht : t ∈ ts) : t.span.text source = t.text := by
  obtain ⟨pre, mid, post, hcut⟩ := h (List.ne_nil_of_mem ht)
  obtain ⟨newline, hscans⟩ := hcut.scans
  obtain ⟨⟨a, b, rfl, hstart⟩, -⟩ := hscans.mem ht
  have hsource : source.toList = (pre ++ a) ++ (t.text.toList ++ (b ++ post)) := by
    rw [hcut.source]
    simp only [List.append_assoc]
  exact Token.text_of_split hsource (by rw [hstart, byteLength_append])

theorem spanOf (h : Cuts source ts) (hts : ts ≠ []) :
    ((spanOf ts).start < (spanOf ts).stop ∧ (spanOf ts).stop ≤ source.utf8ByteSize) ∧
      Program.Boundary source (spanOf ts).start ∧ Program.Boundary source (spanOf ts).stop := by
  obtain ⟨pre, mid, post, hcut⟩ := h hts
  obtain ⟨newline, hscans⟩ := hcut.scans
  obtain ⟨t, ht, hpre⟩ := Option.map_eq_some_iff.1 hcut.start
  obtain ⟨u, hu, hmid⟩ := Option.map_eq_some_iff.1 hcut.stop
  have hspan : Token.spanOf ts = ⟨byteLength pre, byteLength pre + byteLength mid⟩ := by
    rw [hscans.sorted.spanOf_eq ht hu, hpre, hmid]
  have hstop : Program.Boundary source (byteLength pre + byteLength mid) :=
    ⟨pre ++ mid, post, by rw [hcut.source, List.append_assoc], (byteLength_append _ _).symm⟩
  obtain ⟨⟨a, b, hmid', -⟩, hread⟩ := hscans.mem (List.mem_of_mem_head? ht)
  have hsize : 0 < t.text.utf8ByteSize := hread.size
  have hbytes := congrArg byteLength hmid'
  rw [byteLength_append, byteLength_append, byteLength_toList] at hbytes
  rw [hspan]
  refine ⟨⟨?_, hstop.le⟩, ⟨pre, _, hcut.source, rfl⟩, hstop⟩
  dsimp only
  omega

end Cuts

namespace Outline.Laid

variable {os ps : List Outline} {o : Outline}

theorem nil : Laid source ts [] := ⟨nofun, .nil, nofun⟩

theorem mono (h : Laid source ts os) (hsub : ∀ t ∈ ts, t ∈ us) : Laid source us os := by
  refine ⟨h.proper, h.sorted, fun o ho => ?_⟩
  obtain ⟨t, ht, u, hu, hin⟩ := h.within o ho
  exact ⟨t, hsub t ht, u, hsub u hu, hin⟩

theorem left (h : Laid source ts os) : Laid source (ts ++ us) os :=
  h.mono fun _ ht => List.mem_append_left us ht

theorem right (h : Laid source us os) : Laid source (ts ++ us) os :=
  h.mono fun _ ht => List.mem_append_right ts ht

theorem tail (h : Laid source ts os) : Laid source (t :: ts) os :=
  h.mono fun _ ht => List.mem_cons_of_mem t ht

/-- Nodes over some tokens and nodes over the tokens after them. -/
theorem append (hp : Cuts source (ts ++ us)) (h : Laid source ts os) (h' : Laid source us ps) :
    Laid source (ts ++ us) (os ++ ps) := by
  refine ⟨List.forall_mem_append.2 ⟨h.proper, h'.proper⟩,
    List.pairwise_append.2 ⟨h.sorted, h'.sorted, fun o ho p hp' => ?_⟩,
    List.forall_mem_append.2 ⟨h.left.within, h'.right.within⟩⟩
  obtain ⟨-, -, u, hu, -, hstop⟩ := h.within o ho
  obtain ⟨t, ht, -, -, hstart, -⟩ := h'.within p hp'
  have hle := (List.pairwise_append.1 hp.sorted).2.2 u hu t ht
  exact Nat.le_trans hstop (Nat.le_trans hle hstart)

theorem cons (hp : Cuts source (ts ++ us)) (h : Laid source ts [o]) (h' : Laid source us ps) :
    Laid source (ts ++ us) (o :: ps) := append hp h h'

/-- The nodes right below a node are laid as it is. -/
theorem children {span : Span} {text : Option String} (h : Laid source ts [⟨span, text, os⟩]) :
    Laid source ts os := by
  cases h.proper _ (List.mem_singleton_self _) with
  | mk _ _ _ hinside hsorted hchildren =>
    refine ⟨hchildren, hsorted, fun c hc => ?_⟩
    obtain ⟨t, ht, u, hu, hstart, hstop⟩ := h.within _ (List.mem_singleton_self _)
    obtain ⟨hstart', hstop'⟩ := hinside c hc
    exact ⟨t, ht, u, hu, Nat.le_trans hstart hstart', Nat.le_trans hstop' hstop⟩

/-- A node with the span of all tokens has a place where the nodes below it are laid over them. -/
theorem node (hp : Cuts source ts) (hts : ts ≠ []) {text : Option String}
    (htext : ∀ s ∈ text, (spanOf ts).text source = s) (h : Laid source ts os) :
    Laid source ts [⟨spanOf ts, text, os⟩] := by
  obtain ⟨hspan, hends⟩ := hp.spanOf hts
  obtain ⟨u, hu⟩ : ∃ u, ts.getLast? = some u := ⟨_, List.getLast?_eq_some_getLast hts⟩
  obtain ⟨vs, hvs⟩ := List.getLast?_eq_some_iff.1 hu
  obtain ⟨t, ws, hws⟩ := List.exists_cons_of_ne_nil hts
  have heq : spanOf ts = ⟨t.start, u.stop⟩ := hp.sorted.spanOf_eq (by rw [hws]; rfl) hu
  have hstart : ∀ v ∈ ts, t.start ≤ v.start := by
    intro v hv
    rw [hws] at hv
    exact Sorted.start_le (hws ▸ hp.sorted) v hv
  have hstop : ∀ v ∈ ts, v.stop ≤ u.stop := by
    intro v hv
    rw [hvs] at hv
    exact Sorted.le_stop (hvs ▸ hp.sorted) v hv
  refine ⟨?_, List.pairwise_singleton _ _, ?_⟩
  · rw [List.forall_mem_singleton]
    refine .mk hspan hends htext (fun c hc => ?_) h.sorted h.proper
    obtain ⟨v, hv, w, hw, hin⟩ := h.within c hc
    rw [heq]
    exact ⟨Nat.le_trans (hstart v hv) hin.1, Nat.le_trans hin.2 (hstop w hw)⟩
  · rw [List.forall_mem_singleton, heq]
    exact ⟨t, by simp [hws], u, by simp [hvs], Nat.le_refl _, Nat.le_refl _⟩

/-- A node that keeps the text of its one token. -/
theorem token (hp : Cuts source [t]) : Laid source [t] [⟨t.span, some t.text, []⟩] := by
  have htext : ∀ s ∈ some t.text, (spanOf [t]).text source = s := by
    rintro s hs
    rw [spanOf_single, hp.text (List.mem_singleton_self t)]
    exact Option.some.inj hs
  have hnode := node hp (by simp) htext nil
  rwa [spanOf_single] at hnode

end Outline.Laid

open Outline

theorem Ident.Written.laid {i : Ident} (h : i.Written t) (hp : Cuts source [t]) :
    Laid source [t] [i.outline] := by
  obtain ⟨-, rfl⟩ := h
  exact .token hp

theorem Ident.MoreWritten.laid {is : List Ident} (h : Ident.MoreWritten is ts)
    (hp : Cuts source ts) : Laid source ts (is.map Ident.outline) := by
  induction h with
  | nil => exact .nil
  | cons _ _ hi _ ih => exact .tail (.cons hp.tail (hi.laid hp.tail.head) (ih hp.tail.tail))

theorem Name.Written.laid {n : Name} (h : n.Written ts) (hp : Cuts source ts) :
    Laid source ts [n.outline] := by
  cases h with
  | absolute hi his =>
    exact .node hp (by simp) nofun (.cons hp (hi.laid hp.head) (his.laid hp.tail))
  | relative _ hi his =>
    have hp' := hp.tail
    exact .node hp (by simp) nofun (.tail (.cons hp' (hi.laid hp'.head) (his.laid hp'.tail)))

theorem TypeRef.Written.laid {type : TypeRef} (h : type.Written ts) (hp : Cuts source ts) :
    Laid source ts [type.outline] := by
  cases h with
  | @primitive t =>
    have hnode : Laid source [t] [⟨spanOf [t], none, []⟩] := .node hp (by simp) nofun .nil
    rwa [spanOf_single] at hnode
  | named hn =>
    rw [TypeRef.outline, hn.span]
    exact .node hp (by simp) nofun (hn.laid hp)

theorem TypeRef.AnnotationWritten.laid {o : Option TypeRef} (h : TypeRef.AnnotationWritten o ts)
    (hp : Cuts source ts) : Laid source ts (TypeRef.outlineOption o) := by
  cases h with
  | none => exact .nil
  | some _ ht => exact ht.laid hp

/-- The items of a list are laid over its tokens, the closing one apart. -/
theorem ListWritten.laid_dropLast {α : Type} {separators : List TokenKind} {close : TokenKind}
    {written : α → List Token → Prop} {ends : List Token → α → Prop} {as : List α}
    {f : α → Outline} (h : ListWritten separators close written ends as ts)
    (hp : Cuts source ts.dropLast)
    (hw : ∀ {a us}, written a us → Cuts source us → Laid source us [f a]) :
    Laid source ts.dropLast (as.map f) := by
  induction h with
  | done => exact .nil
  | separated ha _ _ hs ih =>
    rw [List.dropLast_append_of_ne_nil (by simp), List.dropLast_cons_of_ne_nil hs.ne_nil] at hp ⊢
    exact .cons hp (hw ha hp.left) (ih hp.right.tail).tail
  | unseparated ha _ _ _ _ ih =>
    rw [List.dropLast_append_of_ne_nil (by simp)] at hp ⊢
    exact .cons hp (hw ha hp.left) (ih hp.right)

theorem ListWritten.laid {α : Type} {separators : List TokenKind} {close : TokenKind}
    {written : α → List Token → Prop} {ends : List Token → α → Prop} {as : List α}
    {f : α → Outline} (h : ListWritten separators close written ends as ts) (hp : Cuts source ts)
    (hw : ∀ {a us}, written a us → Cuts source us → Laid source us [f a]) :
    Laid source ts (as.map f) := by
  have hsplit := List.dropLast_concat_getLast h.ne_nil
  rw [← hsplit] at hp
  exact (h.laid_dropLast hp.left hw).mono fun _ ht => (List.dropLast_sublist ts).subset ht

end Script
