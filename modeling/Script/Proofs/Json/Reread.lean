import Script.Proofs.Json.Views

/-!
What is written for a value is read as that value. The induction is on what is written: its items
and fields are what is written for the parts of the value.
-/
namespace Script

namespace Shape

/-- The shapes that have a value which is written as `null`. -/
def isNullable : Shape → Bool
  | unit | option _ => true
  | _ => false

theorem base_eq {shape : Shape} (h : shape.isNullable = false) : shape.base = shape := by
  cases shape <;> first | rfl | cases h

/-- The values that a shape stands for. The data of a variant is not that of another, and what may
be absent is not `null` when it is there. -/
def Fits : (shape : Shape) → shape.Carrier → Prop
  | list item => fun as => ∀ a ∈ as, item.Fits a
  | option item => fun o => item.isNullable = false ∧ ∀ a ∈ o, item.Fits a
  | shape => fun x => shape.view x ≠ .stray

/-- The shapes that stand for all values of their type. -/
def isTotal : Shape → Bool
  | hole => false
  | list item => item.isTotal
  | option item => !item.isNullable && item.isTotal
  | shape => !shape.isVariantData

variable {shape : Shape} {x : shape.Carrier} {tag : String} {data : Shaped} {fields : List Shaped}

theorem fits_of_isTotal (h : shape.isTotal = true) (x : shape.Carrier) : shape.Fits x := by
  induction shape with
  | list item ih => exact fun a _ => ih h a
  | option item ih =>
    simp only [isTotal, Bool.and_eq_true, Bool.not_eq_true'] at h
    exact ⟨h.1, fun a _ => ih h.2 a⟩
  | _ => cases x <;> first | exact View.noConfusion | cases h

theorem fits_of_isNode (hn : shape.isNode = true) (hx : shape.Holds x) : shape.Fits x := by
  cases shape
  case hole =>
    cases x with
    | text t => exact absurd rfl (hx t)
    | nameHole | exprHole => exact View.noConfusion
  all_goals first | exact fits_of_isTotal rfl x | cases hn

theorem fits_of_tagged (h : shape.view x = .tagged tag data) : data.1.Fits data.2 := by
  cases shape <;> cases x <;> cases h <;> first | exact fits_of_isTotal rfl _ | exact View.noConfusion

theorem parts_isTotal (shape : Shape) : ∀ part ∈ shape.parts, part.2.isTotal = true := by
  cases shape with
  | list | option => simp [parts]
  | _ => decide

theorem fits_of_record (h : shape.view x = .record fields) :
    ∀ part ∈ fields, part.1.Fits part.2 := by
  intro part hp
  have hs : part.1 ∈ shape.parts.map Prod.snd := by
    rw [← shapes_of_record h]
    exact List.mem_map_of_mem hp
  obtain ⟨named, hn, hs⟩ := List.mem_map.1 hs
  exact fits_of_isTotal (hs ▸ parts_isTotal shape named hn) part.2

theorem parts_ne_nil (h : shape.view x = .record fields) : shape.parts ≠ [] := by
  cases shape <;> cases x <;> cases h <;> exact List.cons_ne_nil _ _

theorem length_of_record (h : shape.view x = .record fields) :
    fields.length = shape.fieldNames.length := by
  rw [fieldNames_eq, List.length_map, ← List.length_map Sigma.fst, shapes_of_record h,
    List.length_map]

theorem fieldNames_nodup (shape : Shape) : shape.fieldNames.Nodup := by
  cases shape with
  | list | option => simp [fieldNames]
  | _ => decide

/-! ### The forms of what is written -/

/-- What is written for the values of a shape that may not be absent. -/
inductive Written : (shape : Shape) → shape.Carrier → Json → Prop
  | bound (n : Nat) : Written .bound n (.natural n)
  | flag (b : Bool) : Written .flag b (.bool b)
  | text (s : String) : Written .text s (.string s)
  | list (item : Shape) (as : List item.Carrier) :
      Written (.list item) as (.array (as.map item.toJson))
  | named {shape : Shape} {x : shape.Carrier} {tag : String} (h : shape.view x = .named tag) :
      Written shape x (.string tag)
  | tagged {shape : Shape} {x : shape.Carrier} {tag : String} {data : Shaped}
      (h : shape.view x = .tagged tag data) :
      Written shape x (.object [(tag, data.1.toJson data.2)])
  | record {shape : Shape} {x : shape.Carrier} {fields : List Shaped}
      (h : shape.view x = .record fields) :
      Written shape x
        (.object (shape.fieldNames.zip (fields.map fun part => part.1.toJson part.2)))

theorem written_toJson (hn : shape.isNullable = false) (hx : shape.Fits x) :
    Written shape x (shape.toJson x) := by
  cases hv : shape.view x with
  | plain =>
    have hp := isPlain_of_view hv
    cases shape with
    | bound | flag | text | list => constructor
    | unit | option => cases hn
    | _ => cases hp
  | named tag => exact toJson_of_named hv ▸ .named hv
  | tagged tag data => exact toJson_of_tagged hv ▸ .tagged hv
  | record fields => exact toJson_of_record hv ▸ .record hv
  | stray =>
    cases shape with
    | unit | bound | flag | text | list | option => cases hv
    | _ => exact absurd hv hx

end Shape

/-! ### What is written is read again -/

namespace Json

theorem readItems_eq (items : List Json) : readItems items = items.map read := by
  induction items with
  | nil => rfl
  | cons j js ih => simp [readItems, ih]

theorem readFields_eq (fields : List (String × Json)) :
    readFields fields = fields.map (Prod.map id read) := by
  induction fields with
  | nil => rfl
  | cons field fields ih => simp [readFields, Prod.map, ih]

end Json

/-- In a list of pairs with different keys, the keys find the values. -/
theorem map_lookup_zip {β : Type*} {keys : List String} {values : List β} (hd : keys.Nodup)
    (hl : keys.length = values.length) :
    keys.map ((keys.zip values).lookup ·) = values.map some := by
  induction keys generalizing values with
  | nil => simp [List.length_eq_zero_iff.1 hl.symm]
  | cons key keys ih =>
    obtain _ | ⟨value, values⟩ := values
    · cases hl
    rw [List.nodup_cons] at hd
    simp only [List.length_cons, Nat.add_right_cancel_iff] at hl
    have hne : ∀ k ∈ keys, ((key, value) :: keys.zip values).lookup k =
        (keys.zip values).lookup k := by
      rintro k hk
      have : (k == key) = false := beq_eq_false_iff_ne.2 (by rintro rfl; exact hd.1 hk)
      simp [List.lookup_cons, this]
    simp [List.map_congr_left hne, ih hd.2 hl]

namespace Reading

open Shape

variable {shape : Shape} {x : shape.Carrier}

theorem present_eq {reading : Reading} (hn : shape.isNullable = false) :
    reading.present shape = reading shape := by
  cases shape <;> first | rfl | cases hn

theorem ofArray_list {item : Shape} {as : List item.Carrier} {values : List Reading}
    (h : List.Forall₂ (fun value a => value item = some a) values as) :
    ofArray values (.list item) = some as := by
  simp only [ofArray]
  induction h with
  | nil => rfl
  | cons ha _ ih => simp [List.mapM_cons, ha, ih]

theorem ofObject_tagged {tag : String} {data : Shaped} {value : Reading}
    (h : shape.view x = .tagged tag data) (hv : value data.1 = some data.2) :
    ofObject [(tag, value)] shape = some x := by
  have hk : shape.fieldNames = [] := by rw [fieldNames_eq, (variant?_of_tagged h).1]; rfl
  simp [ofObject, hk, ofVariant, ofTagged_of_tagged h hv]

/-- The fields of a record are found by their names. -/
theorem ofObject_record {fields : List Shaped} {values : List Reading}
    (h : shape.view x = .record fields)
    (hv : List.Forall₂ (fun value part => value part.1 = some part.2) values fields) :
    ofObject (shape.fieldNames.zip values) shape = some x := by
  have hl : shape.fieldNames.length = values.length := by
    rw [hv.length_eq, length_of_record h]
  have hf : shape.fieldNames.map (field (shape.fieldNames.zip values)) = values := by
    change shape.fieldNames.map (fun key => ((shape.fieldNames.zip values).lookup key).getD absent)
      = values
    have := congrArg (List.map (·.getD absent)) (map_lookup_zip (fieldNames_nodup shape) hl)
    simpa [Function.comp_def] using this
  have hk : shape.fieldNames ≠ [] := by
    simpa [fieldNames_eq] using parts_ne_nil h
  unfold ofObject
  split
  · contradiction
  · contradiction
  · rw [hf]
    exact ofFields_of_record h hv

end Reading

namespace Json

/-- What is written as the value is read as what it was written for. -/
def Rereads (j : Json) : Prop :=
  ∀ (shape : Shape) (x : shape.Carrier), shape.Fits x → shape.toJson x = j → j.read shape = some x

theorem read_option {j : Json} (hj : j ≠ null) {item : Shape} (hi : item.isNullable = false) :
    j.read (.option item) = (j.read item).map some := by
  cases j with
  | null => contradiction
  | numeral => rfl
  | _ => cases item <;> first | rfl | cases hi

theorem toJson_ne_null {shape : Shape} {x : shape.Carrier} (hn : shape.isNullable = false)
    (hx : shape.Fits x) : shape.toJson x ≠ null := by
  intro h
  have := h ▸ Shape.written_toJson hn hx
  cases this

/-- It is enough to read the values that may not be absent. -/
theorem rereads_of_written {j : Json}
    (h : ∀ (shape : Shape) (x : shape.Carrier), shape.isNullable = false → shape.Fits x →
      shape.Written x j → j.read shape = some x) : j.Rereads := by
  intro shape x hx hj
  cases hn : shape.isNullable with
  | false => exact h shape x hn hx (hj ▸ Shape.written_toJson hn hx)
  | true =>
    cases shape with
    | unit => subst hj; rfl
    | option item =>
      cases x with
      | none => subst hj; rfl
      | some a =>
        obtain ⟨hi, ha⟩ := hx
        have hw : item.Written a j := hj ▸ Shape.written_toJson hi (ha a rfl)
        have hne : j ≠ null := fun hj' => toJson_ne_null hi (ha a rfl) (hj.trans hj')
        rw [read_option hne hi, h item a hi (ha a rfl) hw]
        rfl
    | _ => cases hn

theorem rereads_array {items : List Json} (h : ∀ j ∈ items, j.Rereads) : (array items).Rereads := by
  refine rereads_of_written fun shape x hn hx hw => ?_
  rw [read, readItems_eq]
  cases hw with
  | list item as =>
    refine @Reading.ofArray_list item as _ ?_
    simp only [List.map_map, List.forall₂_map_left_iff, List.forall₂_same]
    exact fun a ha => h _ (List.mem_map_of_mem ha) item a (hx a ha) rfl

theorem rereads_object {fields : List (String × Json)}
    (h : ∀ j ∈ fields.map Prod.snd, j.Rereads) : (object fields).Rereads := by
  refine rereads_of_written fun shape x hn hx hw => ?_
  rw [read, readFields_eq, Reading.present_eq hn]
  cases hw with
  | @tagged _ _ tag data hv =>
    have hd := h _ List.mem_cons_self data.1 data.2 (Shape.fits_of_tagged hv) rfl
    exact Reading.ofObject_tagged hv hd
  | @record _ _ parts hv =>
    rw [List.map_snd_zip (by simp [Shape.length_of_record hv])] at h
    rw [← List.zip_map_right]
    refine Reading.ofObject_record hv ?_
    simp only [List.map_map, List.forall₂_map_left_iff, List.forall₂_same]
    exact fun part hp =>
      h _ (List.mem_map_of_mem hp) part.1 part.2 (Shape.fits_of_record hv part hp) rfl

theorem rereads_natural {n : Nat} (h : n < UInt64.size) : (natural n).Rereads := by
  refine rereads_of_written fun shape x hn hx hw => ?_
  cases hw
  exact if_pos h

theorem rereads_string (s : String) : (string s).Rereads := by
  refine rereads_of_written fun shape x hn hx hw => ?_
  rw [read, Reading.present_eq hn]
  cases hw with
  | text => rfl
  | named hv => 
    have := Shape.ofName_of_named hv
    cases shape <;> first | exact this | cases hv

mutual

theorem rereads : (j : Json) → j.Bounded → j.Rereads
  | null, _ => rereads_of_written fun _ _ _ _ hw => nomatch hw
  | bool b, _ => rereads_of_written fun _ _ _ _ hw => by cases hw; rfl
  | natural _, h => rereads_natural h
  | numeral _, _ => rereads_of_written fun _ _ _ _ hw => nomatch hw
  | string s, _ => rereads_string s
  | array items, h => rereads_array (rereads_items items h)
  | object fields, h => rereads_object (rereads_fields fields h)

theorem rereads_items : (items : List Json) → BoundedItems items → ∀ j ∈ items, j.Rereads
  | [], _ => by simp
  | j :: js, h => List.forall_mem_cons.2 ⟨rereads j h.1, rereads_items js h.2⟩

theorem rereads_fields : (fields : List (String × Json)) → BoundedFields fields →
    ∀ j ∈ fields.map Prod.snd, j.Rereads
  | [], _ => by simp
  | (_, j) :: fields, h => List.forall_mem_cons.2 ⟨rereads j h.1, rereads_fields fields h.2⟩

end

end Json

end Script
