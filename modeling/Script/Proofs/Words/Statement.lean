import Script.Proofs.Complete.Statement
import Script.Proofs.Words.Control

/-!
The words of declarations, statements and programs.
-/
namespace Script

open Chunk

variable {rules : Rules} {s : Surroundings} {source : String} {b : Bool} {ts : List Token}
  {gap : List Char} {indent : Nat}

section Declarations

theorem Name.MoreWritten.yields {ns : List Name} (h : Name.MoreWritten ns ts)
    (hf : ∀ t ∈ ts, t.Faithful source) :
    Yields true ts (Chunk.words (ns.flatMap fun m => symbol [] .comma :: m.chunks [' '])) := by
  induction h with
  | nil => exact .nil
  | cons ht hn _ ih =>
    rw [List.forall_mem_cons, List.forall_mem_append] at hf
    rw [List.flatMap_cons, List.cons_append, words_comma, words_append]
    exact .separator (.inl ht) ((hn.yields hf.2.1).append (ih hf.2.2))

theorem UseDecl.SubsWritten.yields {ns : List Name} (h : UseDecl.SubsWritten ns ts)
    (hf : ∀ t ∈ ts, t.Faithful source) :
    Yields true ts (Chunk.words (UseDecl.chunksSubs ns)) := by
  cases h with
  | nil => exact .nil
  | cons ht hn hns =>
    rw [List.forall_mem_cons, List.forall_mem_append] at hf
    rw [UseDecl.chunksSubs, List.cons_append, words_symbol [] (by decide), words_append]
    exact .symbol hf.1 (Parser.continuesWith_kind ht) rfl (by decide)
      ((hn.yields hf.2.1).append (hns.yields hf.2.2))

theorem UseDecl.Written.yields {d : UseDecl} (h : d.Written ts)
    (hf : ∀ t ∈ ts, t.Faithful source) : Yields b ts (Chunk.words (d.chunks gap)) := by
  cases h with
  | mk ht hp hs =>
    rw [List.forall_mem_cons, List.forall_mem_append] at hf
    rw [UseDecl.chunks, List.cons_append, words_keyword, words_append]
    exact .keyword ht ((hp.yields hf.2.1).append (hs.yields hf.2.2))

theorem ImportDecl.Written.yields (hr : rules.Yielding source) {d : ImportDecl}
    (h : d.Written rules ts) (hf : ∀ t ∈ ts, t.Faithful source) :
    Yields b ts (Chunk.words (d.chunks (StringLiteral.quoted source) gap indent)) := by
  cases h with
  | plain ht hp =>
    rw [List.forall_mem_cons] at hf
    rw [ImportDecl.chunks, words_keyword]
    exact .keyword ht (hp.yields hf.2)
  | call ht hp hu ha =>
    simp only [List.forall_mem_cons, List.forall_mem_append] at hf
    obtain ⟨-, hts, hu', hus⟩ := hf
    obtain ⟨ws, heach, hyields⟩ := ListWritten.yields_closed (by decide) (by decide) rfl
      (fun _ _ he hf => hr.expr he hf) ha hus
    simp only [ImportDecl.chunks, List.cons_append, List.append_assoc, words_keyword, words_append,
      words_symbol [] (k := .openParen) (by decide), words_symbol [] (k := .closeParen) (by decide)]
    rw [Expr.words_items heach]
    exact .keyword ht ((hp.yields hts).append (.bracket hu' (Parser.continuesWith_kind hu) rfl rfl
      (hyields false)))

/-- A list inside parentheses, whatever its items are. -/
theorem words_commaSeparated {α : Type} {item : List Char → α → List Chunk} {as : List α}
    {ws : List Word} (h : YieldEach (fun gap _ => item gap) as ws) :
    Chunk.words (commaSeparated item as) = ws := by
  have more : ∀ {as ws}, YieldEach (fun gap _ => item gap) as ws →
      Chunk.words (as.flatMap fun a => symbol [] .comma :: item [' '] a) = ws := by
    intro as ws h
    induction h with
    | nil => rfl
    | cons ha _ ih =>
      rw [List.flatMap_cons, List.cons_append, words_comma, words_append, ha _ 0, ih]
  cases h with
  | nil => rfl
  | cons ha has => rw [commaSeparated, words_append, ha _ 0, more has]

theorem ListWritten.yields_parens {α : Type} (item : List Char → α → List Chunk)
    {written : α → List Token → Prop} {ends : List Token → α → Prop} {as : List α}
    (hitem : ∀ a ts, written a ts → (∀ t ∈ ts, t.Faithful source) →
      ∀ b gap, Yields b ts (Chunk.words (item gap a)))
    (h : ListWritten [.comma] .closeParen written ends as ts)
    (hf : ∀ t ∈ ts, t.Faithful source) :
    Yields b ts (Chunk.words (commaSeparated item as) ++ [.symbol .closeParen]) := by
  obtain ⟨ws, heach, hyields⟩ := ListWritten.yields_closed (by decide) (by decide) rfl
    (fun a ts ha hf b gap (_ : Nat) => hitem a ts ha hf b gap) h hf
  rw [words_commaSeparated heach]
  exact hyields b

theorem Param.Written.yields {p : Param} (h : p.Written ts) (hf : ∀ t ∈ ts, t.Faithful source) :
    Yields b ts (Chunk.words (p.chunks gap)) := by
  cases h with
  | mk hn ht =>
    rw [List.forall_mem_cons] at hf
    rw [Param.chunks, words_ident]
    exact .ident hn (ht.yields hf.2)

theorem Property.Written.yields {p : Property} (h : p.Written ts)
    (hf : ∀ t ∈ ts, t.Faithful source) : Yields b ts (Chunk.words (p.chunks gap)) := by
  cases h with
  | mk hn ht =>
    rw [List.forall_mem_append] at hf
    rw [Property.chunks, words_append]
    exact (hn.yields hf.1).append (ht.yields hf.2)

theorem FnBody.Written.yields (hr : rules.Yielding source) {body : FnBody}
    (h : body.Written rules s ts) (hf : ∀ t ∈ ts, t.Faithful source) :
    Yields b ts (Chunk.words (body.chunks (StringLiteral.quoted source) indent)) := by
  cases h with
  | expr ht he =>
    rw [List.forall_mem_cons] at hf
    rw [FnBody.chunks, words_symbol _ (by decide)]
    exact .symbol hf.1 ht rfl (by decide) (hr.expr he hf.2 true [' '] indent)
  | block hb => exact hb.yields hr hf

theorem FnDecl.Written.yields (hr : rules.Yielding source) {d : FnDecl} (h : d.Written rules s ts)
    (hf : ∀ t ∈ ts, t.Faithful source) :
    Yields b ts (Chunk.words (d.chunks (StringLiteral.quoted source) gap indent)) := by
  cases h with
  | mk ht hn hu hp hres hb =>
    simp only [List.forall_mem_cons, List.forall_mem_append] at hf
    obtain ⟨-, hts, hu', hus, hvs, hws⟩ := hf
    have hparams : Yields false _ _ :=
      hp.yields_parens Param.chunks (fun _ _ hp hf _ _ => hp.yields hf) hus
    simp only [FnDecl.chunks, List.cons_append, List.append_assoc, List.nil_append, words_keyword,
      words_append, words_symbol [] (k := .openParen) (by decide),
      words_symbol [] (k := .closeParen) (by decide)]
    rw [List.append_cons (Chunk.words (commaSeparated _ _))]
    exact .keyword ht ((hn.yields hts).append (.bracket hu' hu rfl rfl
      (hparams.append ((hres.yields hvs).append (hb.yields hr hws)))))

theorem Statement.EntryWritten.yields (hr : rules.Yielding source) {st : Statement}
    (h : st.EntryWritten rules s ts) (hf : ∀ t ∈ ts, t.Faithful source) :
    Yields b ts (Chunk.words (st.chunks (StringLiteral.quoted source) gap indent)) := by
  cases h with
  | ifStmt hs => exact hs.yields hr hf
  | pair he _ => exact hr.expr he hf b gap indent

theorem NodeDecl.Written.yields (hr : rules.Yielding source) {d : NodeDecl} (h : d.Written rules ts)
    (hf : ∀ t ∈ ts, t.Faithful source) :
    Yields b ts (Chunk.words (d.chunks (StringLiteral.quoted source) gap indent)) := by
  cases h with
  | mk ht hn hu hp hb =>
    simp only [List.forall_mem_cons, List.forall_mem_append] at hf
    obtain ⟨-, hts, hu', hus, hvs⟩ := hf
    have hprops : Yields false _ _ :=
      hp.yields_parens Property.chunks (fun _ _ hp hf _ _ => hp.yields hf) hus
    cases hb with
    | none =>
      simp only [NodeDecl.chunks, List.cons_append, words_keyword, words_append,
        words_symbol [] (k := .openParen) (by decide),
        words_symbol [] (k := .closeParen) (by decide)]
      rw [words_nil, List.append_assoc, List.cons_append, List.append_nil]
      exact .keyword ht ((hn.yields hts).append (.bracket hu' hu rfl rfl hprops))
    | some hv he =>
      rw [List.forall_mem_cons] at hvs
      obtain ⟨ws, heach, hyields⟩ := ListWritten.yields_closed (by decide) (by decide) rfl
        (fun _ _ he hf _ _ _ => he.yields hr hf) he hvs.2
      simp only [NodeDecl.chunks, List.cons_append, List.append_assoc, List.nil_append,
        words_keyword, words_append, words_symbol [] (k := .openParen) (by decide),
        words_symbol [] (k := .closeParen) (by decide),
        words_symbol [' '] (k := .openBrace) (by decide)]
      rw [List.append_cons (Chunk.words (commaSeparated _ _)), Statement.words_lines heach,
        words_symbol _ (by decide)]
      exact .keyword ht ((hn.yields hts).append (.bracket hu' hu rfl rfl (hprops.append
        (.bracket hvs.1 (Parser.continuesWith_kind hv) rfl rfl (hyields false)))))

theorem FieldDecl.Written.yields {d : FieldDecl} (h : d.Written ts)
    (hf : ∀ t ∈ ts, t.Faithful source) : Yields b ts (Chunk.words (d.chunks gap)) := by
  cases h with
  | mk hn hu ht =>
    simp only [List.forall_mem_cons] at hf
    rw [FieldDecl.chunks, words_ident, words_symbol [] (by decide)]
    exact .ident hn (.symbol hf.2.1 hu rfl (by decide) (ht.yields hf.2.2))

theorem TypeDecl.Written.yields {d : TypeDecl} (h : d.Written ts)
    (hf : ∀ t ∈ ts, t.Faithful source) : Yields b ts (Chunk.words (d.chunks gap indent)) := by
  cases h with
  | mk ht hn hv hfields =>
    simp only [List.forall_mem_cons] at hf
    have hitem : ∀ (d : FieldDecl) ts, d.Written ts → (∀ t ∈ ts, t.Faithful source) →
        ∀ b gap, Nat → Yields b ts (Chunk.words (d.chunks gap)) :=
      fun _ _ hd hf _ _ _ => hd.yields hf
    obtain ⟨ws, heach, hyields⟩ :=
      ListWritten.yields_closed (by decide) (by decide) rfl hitem hfields hf.2.2.2
    have hlines : ∀ {ds ws}, YieldEach (fun gap (_ : Nat) => FieldDecl.chunks gap) ds ws →
        Chunk.words (ds.flatMap (FieldDecl.chunks (lineGap (indent + 1)))) = ws := by
      intro ds ws h
      induction h with
      | nil => rfl
      | cons ha _ ih => rw [List.flatMap_cons, words_append, ha _ 0, ih]
    simp only [TypeDecl.chunks, List.cons_append, words_keyword, words_ident, words_append,
      words_symbol [' '] (k := .openBrace) (by decide)]
    rw [hlines heach, words_symbol _ (by decide)]
    exact .keyword ht (.ident hn (.bracket hf.2.2.1 hv rfl rfl (hyields false)))

theorem EnumMember.Written.yields (hr : rules.Yielding source) {m : EnumMember}
    (h : m.Written rules s ts) (hf : ∀ t ∈ ts, t.Faithful source) :
    Yields b ts (Chunk.words (m.chunks (StringLiteral.quoted source) gap indent)) := by
  cases h with
  | plain hn =>
    rw [EnumMember.chunks, words_ident]
    exact .ident hn .nil
  | assigned hn hu hv =>
    simp only [List.forall_mem_cons] at hf
    rw [EnumMember.chunks, words_ident, words_symbol _ (by decide)]
    exact .ident hn (.symbol hf.2.1 hu rfl (by decide) (hr.expr hv hf.2.2 true [' '] indent))

theorem EnumMember.words_lines {lit : Nat → StringLiteral → String} {ms : List EnumMember}
    {ws : List Word} (h : YieldEach (EnumMember.chunks lit) ms ws) :
    Chunk.words (EnumMember.chunksLines lit indent ms) = ws := by
  induction h with
  | nil => rfl
  | cons ha _ ih => rw [EnumMember.chunksLines, words_append, ha, ih]

theorem EnumDecl.Written.yields (hr : rules.Yielding source) {d : EnumDecl} (h : d.Written rules ts)
    (hf : ∀ t ∈ ts, t.Faithful source) :
    Yields b ts (Chunk.words (d.chunks (StringLiteral.quoted source) gap indent)) := by
  cases h with
  | mk ht hn hv hm =>
    simp only [List.forall_mem_cons] at hf
    obtain ⟨ws, heach, hyields⟩ := ListWritten.yields_closed (by decide) (by decide) rfl
      (fun _ _ hm hf _ _ _ => hm.yields hr hf) hm hf.2.2.2
    simp only [EnumDecl.chunks, List.cons_append, words_keyword, words_ident, words_append,
      words_symbol [' '] (k := .openBrace) (by decide)]
    rw [EnumMember.words_lines heach, words_symbol _ (by decide)]
    exact .keyword ht (.ident hn (.bracket hf.2.2.1 hv rfl rfl (hyields false)))

end Declarations

theorem StatementKind.Written.yields (hr : rules.Yielding source) {k : StatementKind}
    (h : k.Written rules s ts) (hf : ∀ t ∈ ts, t.Faithful source) :
    Yields b ts (Chunk.words (k.chunks (StringLiteral.quoted source) gap indent)) := by
  cases h with
  | modDecl ht _ hn hb =>
    rw [List.forall_mem_cons, List.forall_mem_append] at hf
    rw [StatementKind.chunks, List.cons_append, words_keyword, words_append]
    exact .keyword ht ((hn.yields hf.2.1).append (hb.yields hr hf.2.2))
  | useDecl hd _ => exact hd.yields hf
  | importDecl hd _ => exact hd.yields hr hf
  | varDecl hd => exact hd.yields hr hf
  | fnDecl hd => exact hd.yields hr hf
  | nodeDecl hd _ => exact hd.yields hr hf
  | assign hn ht hv =>
    rw [List.forall_mem_append, List.forall_mem_cons] at hf
    rw [StatementKind.chunks, words_append, words_symbol _ (by decide)]
    exact (hn.name.yields hf.1).append
      (.symbol hf.2.1 ht rfl (by decide) (hr.value hv hf.2.2 true [' '] indent))
  | ifStmt hs => exact hs.yields hr hf
  | forStmt hs => exact hs.yields hr hf
  | whenStmt hs => exact hs.yields hr hf
  | uiBlock ht _ hb =>
    rw [List.forall_mem_cons] at hf
    rw [StatementKind.chunks, words_keyword]
    exact .keyword ht (hb.yields hr hf.2)
  | styleBlock ht _ hb =>
    rw [List.forall_mem_cons] at hf
    rw [StatementKind.chunks, words_keyword]
    exact .keyword ht (hb.yields hr hf.2)
  | typeDecl hd _ => exact hd.yields hf
  | enumDecl hd _ => exact hd.yields hr hf
  | breakStmt ht =>
    rw [StatementKind.chunks, words_keyword]
    exact .keyword ht .nil
  | expr he => exact he.yields hr hf

theorem Statement.Written.yields (hr : rules.Yielding source) {st : Statement}
    (h : st.Written rules s ts) (hf : ∀ t ∈ ts, t.Faithful source) :
    Yields b ts (Chunk.words (st.chunks (StringLiteral.quoted source) gap indent)) := by
  cases h with
  | mk hk => exact hk.yields hr hf

theorem Rules.level_yielding (source : String) : ∀ n, (Rules.level n).Yielding source
  | 0 => ⟨fun h => False.elim h, fun h => False.elim h, fun h => False.elim h⟩
  | n + 1 =>
    have hr := Rules.level_yielding source n
    ⟨fun h hf _ _ _ => h.yields hr hf, fun h hf _ _ _ => h.yields hr hf,
      fun h hf _ _ _ => h.yields hr hf⟩

/-- No token is lost, repeated or moved by reading a program: apart from separators, its words are
those of the source in their order. And a source that is read has no separator where there is
nothing to separate. -/
theorem Program.words_of_parse {source : String} {p : Program}
    (h : Program.parse source = .ok p) :
    ∃ ts last, Lexed.ofString 0 source = ⟨ts, .ok last⟩ ∧
      Token.words ts = p.words source ∧ Token.Separated ts := by
  obtain ⟨ts, last, hl, ⟨n, hs⟩, -⟩ := Program.parse_iff.1 h
  obtain ⟨ws, t, -, hk, heach, hyields⟩ := ListWritten.yields (by decide) (by decide)
    (fun _ _ hst hf => (Rules.level_yielding source n).statement hst hf) hs (Lexed.faithful hl)
  obtain ⟨hwords, hsettled⟩ := hyields false
  have hlast : Token.words [last] = [last.word] := by
    have hsep : last.word.isSeparator = false := by
      simp [Word.isSeparator, Token.word, Lexed.last_kind hl]
    simp [Token.words, hsep]
  rw [Token.words_append, hlast] at hwords
  refine ⟨ts, last, hl, ?_, fun us u vs hts hu => ?_⟩
  · rw [Program.words, Statement.words_lines heach]
    exact (List.append_inj' hwords rfl).1
  · exact Token.separated_of_settled hsettled us u (vs ++ [last]) (by simp [hts]) hu

theorem Program.words_of_parse_call :
    ∃ p, Program.parse "f(1, 2)" = .ok p ∧ p.words "f(1, 2)" =
      [⟨.ident, "f"⟩, ⟨.openParen, "("⟩, ⟨.number .int, "1"⟩, ⟨.number .int, "2"⟩,
        ⟨.closeParen, ")"⟩] := by
  obtain ⟨p, hp⟩ : ∃ p, Program.parse "f(1, 2)" = .ok p :=
    exists_of_isOk (by decide +kernel)
  obtain ⟨ts, last, hl, hwords, -⟩ := Program.words_of_parse hp
  refine ⟨p, hp, hwords.symm.trans ?_⟩
  rw [← show (Lexed.ofString 0 "f(1, 2)").tokens = ts by rw [hl]]
  decide +kernel

end Script
