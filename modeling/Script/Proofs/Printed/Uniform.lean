import Script.Tree.Layout

/-!
Written forms that move with their level. What is written a number of levels deeper is the same text
with the blanks of these levels after each of its line feeds. A form is put together from pieces
that do so: texts on one line, other forms, the turn to a new line, and lines inside braces.
-/
namespace Script.Layout

/-- A text with the blanks of `n` levels after each of its line feeds. -/
def indented (n : Nat) (text : String) : String :=
  String.ofList (text.toList.flatMap fun c =>
    if c = '\n' then '\n' :: List.replicate (2 * n) ' ' else [c])

/-- A text without a line feed. -/
def OneLine (text : String) : Prop := '\n' ∉ text.toList

instance (text : String) : Decidable (OneLine text) := inferInstanceAs (Decidable (¬ _))

/-- A form, written at each level, that goes in as a whole. -/
def Uniform (print : Nat → String) : Prop :=
  ∀ indent n, print (indent + n) = indented n (print indent)

/-- Forms, written at each level, that go in as a whole each. -/
def UniformEach (print : Nat → List String) : Prop :=
  ∀ indent n, print (indent + n) = (print indent).map (indented n)

/-- Lines with their margins and their line feeds that go in as a whole. The last line feed takes
the blanks that the first margin wants, so they are moved from the end to the front. -/
def UniformLines (lines : Nat → String) : Prop :=
  ∀ indent n, lines (indent + n) ++ margin n = margin n ++ indented n (lines indent)

section Texts

variable {s : String}

theorem margin_add (m n : Nat) : margin (m + n) = margin m ++ margin n := by
  rw [margin, margin, margin, ← String.ofList_append, List.replicate_append_replicate, Nat.mul_add]

theorem indented_append (n : Nat) (s t : String) :
    indented n (s ++ t) = indented n s ++ indented n t := by
  simp only [indented, String.toList_append, List.flatMap_append, String.ofList_append]

theorem indented_lineFeed (n : Nat) : indented n "\n" = "\n" ++ margin n :=
  String.ext (by simp [indented, margin])

theorem OneLine.indented_eq (h : OneLine s) (n : Nat) : indented n s = s := by
  have hkept : ∀ cs : List Char, '\n' ∉ cs → (cs.flatMap fun c =>
      if c = '\n' then '\n' :: List.replicate (2 * n) ' ' else [c]) = cs := by
    intro cs hcs
    induction cs with
    | nil => rfl
    | cons c cs ih =>
      rw [List.mem_cons, not_or] at hcs
      rw [List.flatMap_cons, if_neg (Ne.symm hcs.1), ih hcs.2, List.singleton_append]
  rw [indented, hkept _ h, String.ofList_toList]

theorem oneLine_margin (n : Nat) : OneLine (margin n) := by
  simp [OneLine, margin]

end Texts

section Pieces

variable {f g : Nat → String} {items : Nat → List String} {sep : String}

theorem Uniform.text (s : String) (h : OneLine s := by decide) : Uniform fun _ => s :=
  fun _ n => (h.indented_eq n).symm

theorem Uniform.append (hf : Uniform f) (hg : Uniform g) : Uniform fun i => f i ++ g i := by
  intro indent n
  simp only [hf indent n, hg indent n, indented_append]

/-- A text on one line before a form. -/
theorem Uniform.after (s : String) (hf : Uniform f) (h : OneLine s := by decide) :
    Uniform fun i => s ++ f i :=
  (Uniform.text s h).append hf

theorem UniformEach.nil : UniformEach fun _ => [] := fun _ _ => rfl

theorem UniformEach.cons (hf : Uniform f) (hitems : UniformEach items) :
    UniformEach fun i => f i :: items i := by
  intro indent n
  simp only [hf indent n, hitems indent n, List.map_cons]

theorem UniformEach.deeper (hitems : UniformEach items) : UniformEach fun i => items (i + 1) := by
  intro indent n
  simp only [Nat.add_right_comm indent n 1, hitems (indent + 1) n]

theorem UniformEach.map {α : Type} {print : α → String} {as : List α}
    (h : ∀ a ∈ as, Uniform fun _ => print a) : UniformEach fun _ => as.map print := by
  intro indent n
  rw [List.map_map]
  exact List.map_congr_left fun a ha => h a ha indent n

theorem indented_intercalate (h : OneLine sep) (n : Nat) (l : List String) :
    indented n (sep.intercalate l) = sep.intercalate (l.map (indented n)) := by
  induction l with
  | nil => rfl
  | cons a l ih =>
    cases l with
    | nil => simp only [List.map_cons, List.map_nil, String.intercalate_singleton]
    | cons b l =>
      simp only [List.map_cons, String.intercalate_cons_cons, indented_append, h.indented_eq] at ih ⊢
      rw [ih]

theorem UniformEach.intercalate (h : OneLine sep) (hitems : UniformEach items) :
    Uniform fun i => sep.intercalate (items i) := by
  intro indent n
  simp only [hitems indent n, indented_intercalate h]

theorem UniformEach.commaSeparated (hitems : UniformEach items) :
    Uniform fun i => commaSeparated (items i) :=
  hitems.intercalate (by decide)

end Pieces

section Lines

variable {f lines more : Nat → String} {items : Nat → List String}

theorem UniformLines.nil : UniformLines fun _ => "" := by
  intro indent n
  simp [indented]

theorem UniformLines.append (hlines : UniformLines lines) (hmore : UniformLines more) :
    UniformLines fun i => lines i ++ more i := by
  intro indent n
  simp only [indented_append]
  rw [String.append_assoc, hmore indent n, ← String.append_assoc, hlines indent n,
    String.append_assoc]

theorem UniformLines.deeper (hlines : UniformLines lines) :
    UniformLines fun i => lines (i + 1) := by
  intro indent n
  simp only [Nat.add_right_comm indent n 1, hlines (indent + 1) n]

theorem margin_append_line (indent n : Nat) (line : String) :
    margin (indent + n) ++ indented n line ++ "\n" ++ margin n =
      margin n ++ indented n (margin indent ++ line ++ "\n") := by
  simp only [indented_append, indented_lineFeed, (oneLine_margin indent).indented_eq]
  rw [Nat.add_comm, margin_add]
  simp only [String.append_assoc]

/-- A form on a line of its own. -/
theorem Uniform.line (hf : Uniform f) : UniformLines fun i => margin i ++ f i ++ "\n" := by
  intro indent n
  simp only [hf indent n]
  exact margin_append_line indent n (f indent)

/-- Forms on lines of their own. -/
theorem UniformEach.ownLines (hitems : UniformEach items) :
    UniformLines fun i => String.join ((items i).map fun line => margin i ++ line ++ "\n") := by
  intro indent n
  simp only [hitems indent n]
  induction items indent with
  | nil => exact UniformLines.nil indent n
  | cons line rest ih =>
    simp only [List.map_cons, String.join_cons, indented_append (s := margin indent ++ line ++ "\n")]
    rw [String.append_assoc, ih, ← String.append_assoc, margin_append_line, String.append_assoc]

/-- The turn to the first of some lines, the lines, and the closing brace. -/
theorem UniformLines.closed (hlines : UniformLines lines) :
    Uniform fun i => "\n" ++ (lines i ++ (margin i ++ "\x7d")) := by
  intro indent n
  have hbrace : OneLine (margin indent ++ "\x7d") := by
    rw [OneLine, String.toList_append, List.mem_append, not_or]
    exact ⟨oneLine_margin indent, by decide⟩
  have hmargin : margin (indent + n) = margin n ++ margin indent := by
    rw [Nat.add_comm, margin_add]
  calc
    _ = "\n" ++ ((lines (indent + n) ++ margin n) ++ (margin indent ++ "\x7d")) := by
      simp only [hmargin, String.append_assoc]
    _ = "\n" ++ ((margin n ++ indented n (lines indent)) ++ (margin indent ++ "\x7d")) := by
      rw [hlines indent n]
    _ = _ := by
      simp only [indented_append n "\n", indented_append n (lines indent), indented_lineFeed,
        hbrace.indented_eq, String.append_assoc]

theorem bracedLines_of_ne_nil {l : List String} (hl : l ≠ []) (indent : Nat) :
    bracedLines indent l = "\x7b" ++ ("\n" ++
      (String.join (l.map fun line => margin (indent + 1) ++ line ++ "\n") ++
        (margin indent ++ "\x7d"))) := by
  have hopen : "\x7b\n" = "\x7b" ++ "\n" := rfl
  rw [bracedLines, if_neg (by simpa using hl), hopen]
  simp only [String.append_assoc]

/-- Forms on lines of their own in braces, or an empty pair of braces. -/
theorem UniformEach.braced (hitems : UniformEach items) :
    Uniform fun i => bracedLines i (items (i + 1)) := by
  intro indent n
  have hmoved : items (indent + n + 1) = (items (indent + 1)).map (indented n) :=
    hitems.deeper indent n
  by_cases hnil : items (indent + 1) = []
  · have hpair : OneLine "\x7b\x7d" := by decide
    simp only [hmoved, hnil, List.map_nil]
    exact (hpair.indented_eq n).symm
  · have hne : items (indent + n + 1) ≠ [] := by simpa [hmoved] using hnil
    simp only [bracedLines_of_ne_nil hnil, bracedLines_of_ne_nil hne]
    exact (hitems.ownLines.deeper.closed.after "\x7b") indent n

theorem join_map_lineFeed {l : List String} (hl : l ≠ []) :
    String.join (l.map (· ++ "\n")) = "\n".intercalate l ++ "\n" := by
  induction l with
  | nil => exact absurd rfl hl
  | cons a l ih =>
    cases l with
    | nil => simp only [List.map_cons, List.map_nil, String.join_cons, String.join_nil,
        String.append_empty, String.intercalate_singleton]
    | cons b l =>
      rw [List.map_cons, String.join_cons, ih (List.cons_ne_nil b l), String.intercalate_cons_cons,
        String.append_assoc, String.append_assoc, String.append_assoc]

/-- Forms on lines of their own, without the line feed of the last one. -/
theorem UniformEach.separateLines (hitems : UniformEach items) {indent : Nat}
    (hne : items indent ≠ []) (n : Nat) :
    "\n".intercalate ((items (indent + n)).map (margin (indent + n) ++ ·)) =
      margin n ++ indented n ("\n".intercalate ((items indent).map (margin indent ++ ·))) := by
  have hlines : ∀ i, items i ≠ [] →
      String.join ((items i).map fun line => margin i ++ line ++ "\n") =
        "\n".intercalate ((items i).map (margin i ++ ·)) ++ "\n" := by
    intro i hi
    rw [← join_map_lineFeed (by simpa using hi), List.map_map]
    rfl
  have hmoved : items (indent + n) ≠ [] := by simpa [hitems indent n] using hne
  have hown := hitems.ownLines indent n
  simp only [hlines indent hne, hlines (indent + n) hmoved, indented_append, indented_lineFeed,
    ← String.append_assoc] at hown
  exact String.append_left_inj _ |>.1 (String.append_left_inj _ |>.1 hown)

end Lines

end Script.Layout
