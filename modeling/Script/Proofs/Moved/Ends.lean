import Script.Proofs.Ends
import Script.Tree.Spans

/-!
Where a part of a program ends is not told by its spans.
-/
namespace Script

variable {s : Surroundings} {r : List Token} {f : Span → Span}

theorem Expr.isControl_mapSpans (e : Expr) : (e.mapSpans f).IsControl ↔ e.IsControl := by
  obtain ⟨kind, span⟩ := e
  cases kind <;> exact Iff.rfl

theorem IfStmt.endsBefore_mapSpans (stmt : IfStmt) :
    (stmt.mapSpans f).EndsBefore r ↔ stmt.EndsBefore r := by
  obtain ⟨condition, body, elseIfs, elseBody, span⟩ := stmt
  cases elseBody <;> exact Iff.rfl

theorem Expr.endsBefore_mapSpans : ∀ e : Expr, (e.mapSpans f).EndsBefore s r ↔ e.EndsBefore s r
  | ⟨.name _, _⟩ => Iff.rfl
  | ⟨.transition _ _, _⟩ => Iff.rfl
  | ⟨.unary _ operand, _⟩ => and_congr (endsBefore_mapSpans operand) Iff.rfl
  | ⟨.binary _ _ _ right, _⟩ => and_congr (endsBefore_mapSpans right) Iff.rfl
  | ⟨.comparison _ _ _ right, _⟩ => and_congr (endsBefore_mapSpans right) Iff.rfl
  | ⟨.call _ _ none, _⟩ => Iff.rfl
  | ⟨.call _ _ (some _), _⟩ => Iff.rfl
  | ⟨.pair _ value, _⟩ =>
    and_congr (endsBefore_mapSpans value)
      (imp_congr (not_congr value.isControl_mapSpans) Iff.rfl)
  | ⟨.ifExpr stmt, _⟩ => stmt.endsBefore_mapSpans
  | ⟨.whenExpr _, _⟩ => Iff.rfl
  | ⟨.literal _, _⟩ => Iff.rfl
  | ⟨.group _, _⟩ => Iff.rfl
  | ⟨.object _, _⟩ => Iff.rfl
  | ⟨.array _, _⟩ => Iff.rfl

theorem Expr.closes_mapSpans {min : Strength} (e : Expr) :
    (e.mapSpans f).Closes s min r ↔ e.Closes s min r :=
  ⟨fun h => ⟨e.endsBefore_mapSpans.1 h.ends, h.stops⟩,
    fun h => ⟨e.endsBefore_mapSpans.2 h.ends, h.stops⟩⟩

theorem Expr.closesValue_mapSpans {min : Strength} (e : Expr) :
    (e.mapSpans f).ClosesValue s min r ↔ e.ClosesValue s min r :=
  ⟨fun h => ⟨e.endsBefore_mapSpans.1 h.ends, fun hc => h.stops (mt e.isControl_mapSpans.1 hc)⟩,
    fun h => ⟨e.endsBefore_mapSpans.2 h.ends, fun hc => h.stops (mt e.isControl_mapSpans.2 hc)⟩⟩

theorem Expr.endsStatement_mapSpans (e : Expr) :
    (e.mapSpans f).EndsStatement s r ↔ e.EndsStatement s r :=
  ⟨fun h => ⟨e.closes_mapSpans.1 h.closes, h.assign, h.apart⟩,
    fun h => ⟨e.closes_mapSpans.2 h.closes, h.assign, h.apart⟩⟩

theorem TypeRef.endsBefore_mapSpans (t : TypeRef) :
    (t.mapSpans f).EndsBefore r ↔ t.EndsBefore r := by
  obtain ⟨kind, span⟩ := t
  cases kind <;> exact Iff.rfl

theorem TypeRef.annotationEnds_mapSpans (o : Option TypeRef) :
    TypeRef.AnnotationEnds r (o.map (TypeRef.mapSpans f)) ↔ TypeRef.AnnotationEnds r o := by
  cases o with
  | none => exact Iff.rfl
  | some t => exact t.endsBefore_mapSpans

theorem FnBody.endsBefore_mapSpans (b : FnBody) :
    (b.mapSpans f).EndsBefore s r ↔ b.EndsBefore s r := by
  cases b with
  | block => exact Iff.rfl
  | expr e => exact e.closes_mapSpans

theorem Statement.endsBefore_mapSpans (st : Statement) :
    (st.mapSpans f).EndsBefore s r ↔ st.EndsBefore s r := by
  obtain ⟨kind, span⟩ := st
  cases kind with
  | useDecl d =>
    obtain ⟨path, subs, span⟩ := d
    cases subs <;> exact Iff.rfl
  | importDecl d =>
    obtain ⟨path, args, span⟩ := d
    cases args <;> exact Iff.rfl
  | varDecl d =>
    obtain ⟨binding, name, type, value, span⟩ := d
    exact value.closesValue_mapSpans
  | fnDecl d =>
    obtain ⟨name, params, result, body, span⟩ := d
    exact body.endsBefore_mapSpans
  | nodeDecl d =>
    obtain ⟨name, props, body, span⟩ := d
    cases body <;> exact Iff.rfl
  | assign target value => exact value.closesValue_mapSpans
  | ifStmt stmt => exact stmt.endsBefore_mapSpans
  | expr e => exact e.endsStatement_mapSpans
  | _ => exact Iff.rfl

theorem Statement.entryEndsBefore_mapSpans (st : Statement) :
    (st.mapSpans f).EntryEndsBefore s r ↔ st.EntryEndsBefore s r := by
  obtain ⟨kind, span⟩ := st
  cases kind with
  | ifStmt stmt => exact stmt.endsBefore_mapSpans
  | expr e => exact e.closes_mapSpans
  | _ => exact Iff.rfl

theorem Param.endsBefore_mapSpans (p : Param) : (p.mapSpans f).EndsBefore r ↔ p.EndsBefore r :=
  TypeRef.annotationEnds_mapSpans p.type

theorem Property.endsBefore_mapSpans (p : Property) :
    (p.mapSpans f).EndsBefore r ↔ p.EndsBefore r := by
  obtain ⟨name, type, span⟩ := p
  refine and_congr ?_ (TypeRef.annotationEnds_mapSpans type)
  cases type <;> exact Iff.rfl

theorem EnumMember.endsBefore_mapSpans (m : EnumMember) :
    (m.mapSpans f).EndsBefore s r ↔ m.EndsBefore s r := by
  obtain ⟨name, value, span⟩ := m
  cases value with
  | none => exact Iff.rfl
  | some e => exact e.closes_mapSpans

theorem CaseBody.endsBefore_mapSpans (b : CaseBody) :
    (b.mapSpans f).EndsBefore s r ↔ b.EndsBefore s r := by
  cases b with
  | block => exact Iff.rfl
  | arrow st => exact st.endsBefore_mapSpans

end Script
