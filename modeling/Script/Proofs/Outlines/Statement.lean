import Script.Proofs.Outlines.Expression

/-!
The outlines of control constructs, declarations and statements are laid over their tokens, and so
the spans of a whole program form a proper tree over its source.
-/
namespace Script

open Outline Token

variable {source : String} {n : Nat} {s : Surroundings} {min : Strength} {ts : List Token}

namespace Rules.Laying

section Control

variable {rules : Rules} (hr : rules.Laying source)
include hr

theorem elseIfs {es : List ElseIf} (h : ElseIf.EachWritten rules s es ts) (hp : Cuts source ts) :
    Laid source ts (ElseIf.outlineEach es) := by
  induction h with
  | nil => exact .nil
  | cons he _ ih =>
    refine .cons hp ?_ (ih hp.right)
    have hp := hp.left
    cases he with
    | mk _ _ hc hb =>
      have hp' := hp.tail.tail
      exact .node hp (by simp) nofun
        (.tail (.tail (.cons hp' (hr.expr hc hp'.left) (hr.block hb hp'.right))))

theorem elseBlock {o : Option Block} (h : Block.ElseWritten rules o ts) (hp : Cuts source ts) :
    Laid source ts (Block.outlineOption o) := by
  cases h with
  | none => exact .nil
  | some _ hb => exact .tail (hr.block hb hp.tail)

theorem ifStmt {stmt : IfStmt} (h : stmt.Written rules s ts) (hp : Cuts source ts) :
    Laid source ts [stmt.outline] := by
  cases h with
  | mk _ hc hb hes hl =>
    have hp' := hp.tail
    have helse := Laid.append hp'.right.right (hr.elseIfs hes hp'.right.right.left)
      (hr.elseBlock hl hp'.right.right.right)
    have hbody := Laid.cons hp'.right (hr.block hb hp'.right.left) helse
    exact .node hp (by simp) nofun (.tail (.cons hp' (hr.expr hc hp'.left) hbody))

theorem varDecl {d : VarDecl} (h : d.Written rules s ts) (hp : Cuts source ts) :
    Laid source ts [d.outline] := by
  cases h with
  | mk _ hn hy _ he =>
    have hp' := hp.tail.tail
    have hrest := Laid.append hp' (hy.laid hp'.left) (.tail (hr.value he hp'.right.tail))
    exact .node hp (by simp) nofun (.tail (.cons hp.tail (hn.laid hp.tail.head) hrest))

theorem initDecls {ds : List VarDecl} (h : VarDecl.InitWritten rules s ds ts)
    (hp : Cuts source ts) : Laid source ts (VarDecl.outlineEach ds) := by
  induction h with
  | nil => exact .nil
  | cons hd _ _ ih => exact .cons hp (hr.varDecl hd hp.left) (.tail (ih hp.right.tail))

theorem forHead {head : ForHead} (h : head.Written rules s ts) (hp : Cuts source ts) :
    Laid source ts head.outlines := by
  cases h with
  | iterate hn _ _ hi =>
    exact .cons hp (hn.laid hp.head) (.tail (hr.value hi hp.tail.tail))
  | indexed hx _ _ hn _ hi =>
    have hp' := hp.tail.tail
    have hname := Laid.cons hp' (hn.laid hp'.head) (.tail (hr.value hi hp'.tail.tail))
    exact .cons hp (hx.laid hp.head) (.tail hname)
  | init hd =>
    rw [ForHead.outlines, Expr.outlineOption, List.append_nil]
    exact hr.initDecls hd hp
  | counted hd hc => exact .append hp (hr.initDecls hd hp.left) (hr.expr hc hp.right)

theorem forStmt {stmt : ForStmt} (h : stmt.Written rules s ts) (hp : Cuts source ts) :
    Laid source ts [stmt.outline] := by
  cases h with
  | mk _ hhead hb =>
    have hp' := hp.tail
    exact .node hp (by simp) nofun
      (.tail (.append hp' (hr.forHead hhead hp'.left) (hr.block hb hp'.right)))

theorem caseBody {body : CaseBody} (h : body.Written rules s ts) (hp : Cuts source ts) :
    Laid source ts [body.outline] := by
  cases h with
  | arrow _ hs => exact .tail (hr.statement hs hp.tail)
  | block hb => exact hr.block hb hp

theorem elseCase {o : Option CaseBody} (h : CaseBody.ElseWritten rules o ts)
    (hp : Cuts source ts) : Laid source ts (CaseBody.outlineOption o) := by
  cases h with
  | none => exact .nil
  | some _ hb => exact .tail (.left (hr.caseBody hb hp.tail.left))
  | separated _ hb => exact .tail (.left (hr.caseBody hb hp.tail.left))

theorem whenCase {c : WhenCase} (h : c.Written rules s ts) (hp : Cuts source ts) :
    Laid source ts [c.outline] := by
  cases h with
  | mk _ hpattern _ hb =>
    have hp' := hp.tail
    exact .node hp (by simp) nofun
      (.tail (.cons hp' (hr.expr hpattern hp'.left) (hr.caseBody hb hp'.right)))

theorem whenCases {cs : List WhenCase} {o : Option CaseBody}
    (h : WhenCase.EachWritten rules o cs ts) (hp : Cuts source ts) :
    Laid source ts (WhenCase.outlineEach cs ++ CaseBody.outlineOption o) := by
  induction h with
  | done hl => exact hr.elseCase hl hp
  | separated hc _ _ _ ih => exact .cons hp (hr.whenCase hc hp.left) (.tail (ih hp.right.tail))
  | unseparated hc _ _ _ _ ih => exact .cons hp (hr.whenCase hc hp.left) (ih hp.right)

theorem whenStmt {stmt : WhenStmt} (h : stmt.Written rules s ts) (hp : Cuts source ts) :
    Laid source ts [stmt.outline] := by
  cases h with
  | mk _ hi hs _ hc =>
    have hp' := hp.tail
    have hcases := Laid.cons hp'.right (hr.expr hs hp'.right.left)
      (.tail (hr.whenCases hc hp'.right.right.tail))
    exact .node hp (by simp) nofun (.tail (.append hp' (hr.initDecls hi hp'.left) hcases))

theorem valueWritten {e : Expr} (h : e.ValueWritten rules s min ts) (hp : Cuts source ts) :
    Laid source ts [e.outline] := by
  cases h with
  | ifExpr hs => exact .expr hp hs.begin.ne_nil rfl rfl (hr.ifStmt hs hp)
  | whenExpr hs => exact .expr hp hs.begin.ne_nil rfl rfl (hr.whenStmt hs hp)
  | expr he => exact hr.written he hp

end Control

end Rules.Laying

theorem Name.MoreWritten.laid {ns : List Name} (h : Name.MoreWritten ns ts)
    (hp : Cuts source ts) : Laid source ts (ns.map Name.outline) := by
  induction h with
  | nil => exact .nil
  | cons _ hn _ ih => exact .tail (.cons hp.tail (hn.laid hp.tail.left) (ih hp.tail.right))

theorem UseDecl.Written.laid {d : UseDecl} (h : d.Written ts) (hp : Cuts source ts) :
    Laid source ts [d.outline] := by
  cases h with
  | mk _ hpath hs =>
    have hp' := hp.tail
    refine .node hp (by simp) nofun (.tail (.cons hp' (hpath.laid hp'.left) ?_))
    have hp' := hp'.right
    cases hs with
    | nil => exact .nil
    | cons _ hn hns =>
      exact .tail (.cons hp'.tail (hn.laid hp'.tail.left) (hns.laid hp'.tail.right))

theorem Param.Written.laid {p : Param} (h : p.Written ts) (hp : Cuts source ts) :
    Laid source ts [p.outline] := by
  cases h with
  | mk hn ht => exact .node hp (by simp) nofun (.cons hp (hn.laid hp.head) (ht.laid hp.tail))

theorem Property.Written.laid {p : Property} (h : p.Written ts) (hp : Cuts source ts) :
    Laid source ts [p.outline] := by
  cases h with
  | mk hn ht =>
    exact .node hp (List.append_ne_nil_of_left_ne_nil hn.ne_nil _) nofun
      (.cons hp (hn.laid hp.left) (ht.laid hp.right))

theorem FieldDecl.Written.laid {d : FieldDecl} (h : d.Written ts) (hp : Cuts source ts) :
    Laid source ts [d.outline] := by
  cases h with
  | mk hn _ ht =>
    exact .node hp (by simp) nofun (.cons hp (hn.laid hp.head) (.tail (ht.laid hp.tail.tail)))

theorem TypeDecl.Written.laid {d : TypeDecl} (h : d.Written ts) (hp : Cuts source ts) :
    Laid source ts [d.outline] := by
  cases h with
  | mk _ hn _ hf =>
    have hp' := hp.tail
    have hfields := hf.laid hp'.tail.tail FieldDecl.Written.laid
    exact .node hp (by simp) nofun (.tail (.cons hp' (hn.laid hp'.head) (.tail hfields)))

namespace Rules.Laying

section Declarations

variable {rules : Rules} (hr : rules.Laying source)
include hr

theorem importDecl {d : ImportDecl} (h : d.Written rules ts) (hp : Cuts source ts) :
    Laid source ts [d.outline] := by
  cases h with
  | plain _ hpath => exact .node hp (by simp) nofun (.tail (hpath.laid hp.tail))
  | call _ hpath _ ha =>
    have hp' := hp.tail
    have hargs := ha.laid hp'.right.tail hr.expr
    rw [ImportDecl.outline, Expr.outlineEach_eq]
    exact .node hp (by simp) nofun (.tail (.cons hp' (hpath.laid hp'.left) (.tail hargs)))

theorem fnBody {body : FnBody} (h : body.Written rules s ts) (hp : Cuts source ts) :
    Laid source ts [body.outline] := by
  cases h with
  | expr _ he => exact .tail (hr.expr he hp.tail)
  | block hb => exact hr.block hb hp

theorem fnDecl {d : FnDecl} (h : d.Written rules s ts) (hp : Cuts source ts) :
    Laid source ts [d.outline] := by
  cases h with
  | mk _ hn _ hparams hresult hb =>
    have hp' := hp.tail
    have hp'' := hp'.right.tail
    have hrest := Laid.append hp''.right (hresult.laid hp''.right.left)
      (hr.fnBody hb hp''.right.right)
    have hlist := Laid.append hp'' (hparams.laid hp''.left Param.Written.laid) hrest
    exact .node hp (by simp) nofun (.tail (.cons hp' (hn.laid hp'.left) (.tail hlist)))

theorem entry {st : Statement} (h : st.EntryWritten rules s ts) (hp : Cuts source ts) :
    Laid source ts [st.outline] := by
  cases h with
  | ifStmt hs => exact .node hp hs.begin.ne_nil nofun (hr.ifStmt hs hp)
  | pair he =>
    rw [hr.spanning.expr he hp.sorted]
    exact .node hp (hr.spanning.opening.expr he).begin.ne_nil nofun (hr.expr he hp)

theorem nodeDecl {d : NodeDecl} (h : d.Written rules ts) (hp : Cuts source ts) :
    Laid source ts [d.outline] := by
  cases h with
  | mk _ hn _ hprops hb =>
    have hp' := hp.tail
    have hp'' := hp'.right.tail
    have hlist := hprops.laid hp''.left Property.Written.laid
    cases hb with
    | none =>
      exact .node hp (by simp) nofun (.tail (.cons hp' (hn.laid hp'.left) (.tail hlist.left)))
    | some _ he =>
      have hentries := he.laid hp''.right.tail hr.entry
      rw [NodeDecl.outline, Statement.outlineEach_eq]
      exact .node hp (by simp) nofun
        (.tail (.cons hp' (hn.laid hp'.left) (.tail (.append hp'' hlist (.tail hentries)))))

theorem enumMember {m : EnumMember} (h : m.Written rules s ts) (hp : Cuts source ts) :
    Laid source ts [m.outline] := by
  cases h with
  | plain hn => exact .node hp (by simp) nofun (hn.laid hp)
  | assigned hn _ hv =>
    exact .node hp (by simp) nofun (.cons hp (hn.laid hp.head) (.tail (hr.expr hv hp.tail.tail)))

theorem enumDecl {d : EnumDecl} (h : d.Written rules ts) (hp : Cuts source ts) :
    Laid source ts [d.outline] := by
  cases h with
  | mk _ hn _ hm =>
    have hp' := hp.tail
    have hmembers := hm.laid hp'.tail.tail hr.enumMember
    rw [EnumDecl.outline, EnumMember.outlineEach_eq]
    exact .node hp (by simp) nofun (.tail (.cons hp' (hn.laid hp'.head) (.tail hmembers)))

theorem statementKind {k : StatementKind} (h : k.Written rules s ts) (hp : Cuts source ts) :
    Laid source ts k.outlines := by
  cases h with
  | modDecl _ _ hn hb =>
    exact .tail (.cons hp.tail (hn.laid hp.tail.left) (hr.block hb hp.tail.right))
  | useDecl hd => exact hd.laid hp
  | importDecl hd => exact hr.importDecl hd hp
  | varDecl hd => exact hr.varDecl hd hp
  | fnDecl hd => exact hr.fnDecl hd hp
  | nodeDecl hd => exact hr.nodeDecl hd hp
  | assign hn _ hv =>
    exact .cons hp (hn.name.laid hp.left) (.tail (hr.value hv hp.right.tail))
  | ifStmt hs => exact hr.ifStmt hs hp
  | forStmt hs => exact hr.forStmt hs hp
  | whenStmt hs => exact hr.whenStmt hs hp
  | uiBlock _ _ hb => exact .tail (hr.block hb hp.tail)
  | styleBlock _ _ hb => exact .tail (hr.block hb hp.tail)
  | typeDecl hd => exact hd.laid hp
  | enumDecl hd => exact hr.enumDecl hd hp
  | breakStmt => exact .nil
  | expr he => exact hr.written he hp

end Declarations

theorem step (hr : (Rules.level n).Laying source) : (Rules.level (n + 1)).Laying source where
  spanning := Rules.level_spanning (n + 1)
  expr h hp := hr.written h hp
  value h hp := hr.valueWritten h hp
  statement {s st ts} h hp := by
    have hts : ts ≠ [] := (Rules.level_opening (n + 1)).statement h |>.ne_nil
    cases h with
    | mk hk => exact .node hp hts nofun (hr.statementKind hk hp)

end Rules.Laying

theorem Rules.level_laying (source : String) : ∀ n, (Rules.level n).Laying source
  | 0 => ⟨Rules.level_spanning 0, False.elim, False.elim, False.elim⟩
  | n + 1 => (level_laying source n).step

namespace Program

/-- The spans of a program are a proper tree over its source: its statements have their places in
it, one after the other, and so have the nodes below them. -/
theorem parse_outlines {source : String} {p : Program} (h : parse source = .ok p) :
    p.span = ⟨0, source.utf8ByteSize⟩ ∧ p.outlines.Pairwise Before ∧
      ∀ o ∈ p.outlines, o.Proper source := by
  obtain ⟨ts, last, hlexed, hwritten⟩ := parse_iff.1 h
  obtain ⟨n, hs⟩ := hwritten.statements
  have hp : Cuts source ts := by
    intro hts
    refine @cut_of_lexed ts [] [] source last ?_ hts
    rwa [List.nil_append, List.append_nil]
  have hts : (ts ++ [last]).dropLast = ts := List.dropLast_concat
  rw [← hts] at hp
  have hlaid := hs.laid_dropLast hp (Rules.level_laying source n).statement
  rw [← Statement.outlineEach_eq] at hlaid
  refine ⟨?_, hlaid.sorted, hlaid.proper⟩
  rw [hwritten.span_eq hlexed, Nat.zero_add]

theorem parse_outlines_hole : ∃ p o, parse "var x = f\"é$\x7b a.b + 12 \x7d\"" = .ok p ∧
    p.outlines = [o] ∧ o.span = ⟨0, 26⟩ ∧
    o.Proper "var x = f\"é$\x7b a.b + 12 \x7d\"" := by
  have hspans : (parse "var x = f\"é$\x7b a.b + 12 \x7d\"").toOption.map
      (fun p => p.outlines.map Outline.span) = some [⟨0, 26⟩] := by decide +kernel
  obtain ⟨p, hp, hspans⟩ := Option.map_eq_some_iff.1 hspans
  have hp := eq_ok_of_toOption hp
  obtain ⟨o, ho, hspan⟩ := List.map_eq_singleton_iff.1 hspans
  obtain ⟨-, -, hproper⟩ := parse_outlines hp
  exact ⟨p, o, hp, ho, hspan, hproper o (ho ▸ List.mem_singleton_self o)⟩

end Program

end Script
