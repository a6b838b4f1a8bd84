import Script.Proofs.Ends
import Script.Tree.Idents

/-!
Where a part of a program ends is not told by its identifiers.
-/
namespace Script

variable {s : Surroundings} {r : List Token} {f : Ident → Ident}

theorem Expr.isControl_mapIdents (e : Expr) : (e.mapIdents f).IsControl ↔ e.IsControl := by
  obtain ⟨kind, span⟩ := e
  cases kind <;> exact Iff.rfl

theorem IfStmt.endsBefore_mapIdents (stmt : IfStmt) :
    (stmt.mapIdents f).EndsBefore r ↔ stmt.EndsBefore r := by
  obtain ⟨condition, body, elseIfs, elseBody, span⟩ := stmt
  cases elseBody <;> exact Iff.rfl

theorem Expr.endsBefore_mapIdents : ∀ e : Expr, (e.mapIdents f).EndsBefore s r ↔ e.EndsBefore s r
  | ⟨.name _, _⟩ => Iff.rfl
  | ⟨.transition _ _, _⟩ => Iff.rfl
  | ⟨.unary _ operand, _⟩ => and_congr (endsBefore_mapIdents operand) Iff.rfl
  | ⟨.binary _ _ _ right, _⟩ => and_congr (endsBefore_mapIdents right) Iff.rfl
  | ⟨.comparison _ _ _ right, _⟩ => and_congr (endsBefore_mapIdents right) Iff.rfl
  | ⟨.call _ _ none, _⟩ => Iff.rfl
  | ⟨.call _ _ (some _), _⟩ => Iff.rfl
  | ⟨.pair _ value, _⟩ =>
    and_congr (endsBefore_mapIdents value)
      (imp_congr (not_congr value.isControl_mapIdents) Iff.rfl)
  | ⟨.ifExpr stmt, _⟩ => stmt.endsBefore_mapIdents
  | ⟨.whenExpr _, _⟩ => Iff.rfl
  | ⟨.literal _, _⟩ => Iff.rfl
  | ⟨.group _, _⟩ => Iff.rfl
  | ⟨.object _, _⟩ => Iff.rfl
  | ⟨.array _, _⟩ => Iff.rfl

theorem Expr.closes_mapIdents {min : Strength} (e : Expr) :
    (e.mapIdents f).Closes s min r ↔ e.Closes s min r :=
  ⟨fun h => ⟨e.endsBefore_mapIdents.1 h.ends, h.stops⟩,
    fun h => ⟨e.endsBefore_mapIdents.2 h.ends, h.stops⟩⟩

theorem Expr.closesValue_mapIdents {min : Strength} (e : Expr) :
    (e.mapIdents f).ClosesValue s min r ↔ e.ClosesValue s min r :=
  ⟨fun h => ⟨e.endsBefore_mapIdents.1 h.ends, fun hc => h.stops (mt e.isControl_mapIdents.1 hc)⟩,
    fun h => ⟨e.endsBefore_mapIdents.2 h.ends, fun hc => h.stops (mt e.isControl_mapIdents.2 hc)⟩⟩

theorem Expr.endsStatement_mapIdents (e : Expr) :
    (e.mapIdents f).EndsStatement s r ↔ e.EndsStatement s r :=
  ⟨fun h => ⟨e.closes_mapIdents.1 h.closes, h.assign, h.apart⟩,
    fun h => ⟨e.closes_mapIdents.2 h.closes, h.assign, h.apart⟩⟩

theorem TypeRef.endsBefore_mapIdents (t : TypeRef) :
    (t.mapIdents f).EndsBefore r ↔ t.EndsBefore r := by
  obtain ⟨kind, span⟩ := t
  cases kind <;> exact Iff.rfl

theorem TypeRef.annotationEnds_mapIdents (o : Option TypeRef) :
    TypeRef.AnnotationEnds r (o.map (TypeRef.mapIdents f)) ↔ TypeRef.AnnotationEnds r o := by
  cases o with
  | none => exact Iff.rfl
  | some t => exact t.endsBefore_mapIdents

theorem FnBody.endsBefore_mapIdents (b : FnBody) :
    (b.mapIdents f).EndsBefore s r ↔ b.EndsBefore s r := by
  cases b with
  | block => exact Iff.rfl
  | expr e => exact e.closes_mapIdents

theorem Statement.endsBefore_mapIdents (st : Statement) :
    (st.mapIdents f).EndsBefore s r ↔ st.EndsBefore s r := by
  obtain ⟨kind, span⟩ := st
  cases kind with
  | useDecl d =>
    obtain ⟨path, subs, span⟩ := d
    cases subs <;> exact Iff.rfl
  | importDecl d =>
    obtain ⟨path, args, span⟩ := d
    cases args <;> exact Iff.rfl
  | varDecl d =>
    obtain ⟨binding, name, type, value, span⟩ := d
    exact value.closesValue_mapIdents
  | fnDecl d =>
    obtain ⟨name, params, result, body, span⟩ := d
    exact body.endsBefore_mapIdents
  | nodeDecl d =>
    obtain ⟨name, props, body, span⟩ := d
    cases body <;> exact Iff.rfl
  | assign target value => exact value.closesValue_mapIdents
  | ifStmt stmt => exact stmt.endsBefore_mapIdents
  | expr e => exact e.endsStatement_mapIdents
  | _ => exact Iff.rfl

theorem Statement.entryEndsBefore_mapIdents (st : Statement) :
    (st.mapIdents f).EntryEndsBefore s r ↔ st.EntryEndsBefore s r := by
  obtain ⟨kind, span⟩ := st
  cases kind with
  | ifStmt stmt => exact stmt.endsBefore_mapIdents
  | expr e => exact e.closes_mapIdents
  | _ => exact Iff.rfl

theorem Param.endsBefore_mapIdents (p : Param) : (p.mapIdents f).EndsBefore r ↔ p.EndsBefore r :=
  TypeRef.annotationEnds_mapIdents p.type

theorem Property.endsBefore_mapIdents (p : Property) :
    (p.mapIdents f).EndsBefore r ↔ p.EndsBefore r := by
  obtain ⟨name, type, span⟩ := p
  refine and_congr ?_ (TypeRef.annotationEnds_mapIdents type)
  cases type <;> exact Iff.rfl

theorem EnumMember.endsBefore_mapIdents (m : EnumMember) :
    (m.mapIdents f).EndsBefore s r ↔ m.EndsBefore s r := by
  obtain ⟨name, value, span⟩ := m
  cases value with
  | none => exact Iff.rfl
  | some e => exact e.closes_mapIdents

theorem CaseBody.endsBefore_mapIdents (b : CaseBody) :
    (b.mapIdents f).EndsBefore s r ↔ b.EndsBefore s r := by
  cases b with
  | block => exact Iff.rfl
  | arrow st => exact st.endsBefore_mapIdents

end Script
