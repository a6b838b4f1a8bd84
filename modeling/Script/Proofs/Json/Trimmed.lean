import Script.Proofs.Json.Reread

/-!
What reads as a value is, when trimmed, what is written for it, so trees survive their JSON form in
both directions.
-/
namespace Script

namespace Json

theorem trimItems_eq (items : List Json) : trimItems items = items.map trim := by
  induction items with
  | nil => rfl
  | cons j js ih => simp [trimItems, ih]

theorem trimFields_eq (fields : List (String × Json)) :
    trimFields fields = fields.map (Prod.map id trim) := by
  induction fields with
  | nil => rfl
  | cons field fields ih => simp [trimFields, Prod.map, ih]

end Json

namespace Reading

open Shape

/-- What a reading answers is written as the trimmed value. -/
def Keeps (reading : Reading) (trimmed : Shape → Json) : Prop :=
  ∀ (shape : Shape) (x : shape.Carrier), reading shape = some x →
    shape.view x ≠ .stray ∧ shape.toJson x = trimmed shape

variable {values : List Reading} {trims : List (Shape → Json)} {reading : Reading}
  {trimmed : Shape → Json}

theorem Keeps.present (h : reading.Keeps trimmed) :
    reading.present.Keeps fun shape => trimmed shape.base := by
  intro shape x hx
  cases shape with
  | option item =>
    obtain ⟨a, ha, rfl⟩ := Option.map_eq_some_iff.1 hx
    exact ⟨nofun, (h item a ha).2⟩
  | _ => exact h _ x hx

theorem keeps_absent : absent.Keeps fun _ => .null := by
  intro shape x hx
  cases shape with
  | option item => cases hx; exact ⟨nofun, rfl⟩
  | _ => cases hx

theorem keeps_null : ofNull.Keeps fun _ => .null := by
  intro shape x hx
  cases shape with
  | option item => cases hx; exact ⟨nofun, rfl⟩
  | unit => exact ⟨nofun, rfl⟩
  | _ => cases hx

theorem keeps_bool (b : Bool) : (ofBool b).Keeps fun _ => .bool b := by
  intro shape x hx
  cases shape <;> cases hx
  exact ⟨nofun, rfl⟩

theorem keeps_natural (n : Nat) : (ofNatural n).Keeps fun _ => .natural n := by
  intro shape x hx
  cases shape with
  | bound =>
    obtain ⟨-, hx⟩ := Option.ite_none_right_eq_some.1 hx
    cases hx
    exact ⟨nofun, rfl⟩
  | _ => cases hx

theorem keeps_name (tag : String) : (ofName tag).Keeps fun _ => .string tag := by
  intro shape x hx
  have hv := named_of_ofName hx
  exact ⟨hv ▸ nofun, toJson_of_named hv⟩

theorem keeps_string (s : String) : (ofString s).Keeps fun _ => .string s := by
  intro shape x hx
  cases shape with
  | text => cases hx; exact ⟨nofun, rfl⟩
  | _ => exact keeps_name s _ x hx

/-- The fields of a record that is read keep the names and shapes that its shape tells. -/
theorem zip_fields {fields : List Shaped} {parts : List (String × Shape)}
    (hs : fields.map Sigma.fst = parts.map Prod.snd)
    (hv : List.Forall₂ (fun trimmed part => part.1.toJson part.2 = trimmed part.1) trims fields) :
    (parts.map Prod.fst).zip (fields.map fun part => part.1.toJson part.2) =
      List.zipWith (fun part item => (part.1, item part.2)) parts trims := by
  induction hv generalizing parts with
  | nil => simp
  | cons ht _ ih =>
    obtain _ | ⟨part, parts⟩ := parts
    · cases hs
    · simp only [List.map_cons, List.cons.injEq] at hs
      simp [ht, hs.1, ih hs.2]

theorem toJson_fields {fields : List Shaped} (h : List.Forall₂ Keeps values trims)
    (hf : List.Forall₂ (fun value part => value part.1 = some part.2) values fields) :
    List.Forall₂ (fun trimmed part => part.1.toJson part.2 = trimmed part.1) trims fields := by
  induction h generalizing fields with
  | nil => cases hf; exact .nil
  | cons hk _ ih =>
    cases hf with
    | cons ha hf => exact .cons (hk _ _ ha).2 (ih hf)

theorem keeps_fields (h : List.Forall₂ Keeps values trims) :
    (ofFields values).Keeps fun shape =>
      .object (List.zipWith (fun part item => (part.1, item part.2)) shape.parts trims) := by
  intro shape x hx
  obtain ⟨fields, hv, hf⟩ := record_of_ofFields hx
  refine ⟨hv ▸ nofun, ?_⟩
  rw [toJson_of_record hv, fieldNames_eq, zip_fields (shapes_of_record hv) (toJson_fields h hf)]

theorem keeps_list (h : List.Forall₂ Keeps values trims) {item : Shape} {as : List item.Carrier}
    (hx : values.mapM (· item) = some as) : as.map item.toJson = trims.map (· item) := by
  induction h generalizing as with
  | nil => cases hx; rfl
  | cons hk _ ih =>
    simp only [List.mapM_cons, Option.bind_eq_bind, Option.bind_eq_some_iff, Option.pure_def,
      Option.some.injEq] at hx
    obtain ⟨a, ha, as, has, rfl⟩ := hx
    simp [(hk _ _ ha).2, ih has]

theorem keeps_array (h : List.Forall₂ Keeps values trims) :
    (ofArray values).Keeps (Json.trimArray trims) := by
  intro shape x hx
  cases shape with
  | list item => exact ⟨nofun, congrArg Json.array (keeps_list h hx)⟩
  | _ => first | cases hx | exact keeps_fields h _ x hx

/-- A variant without data may be given with `null`, which is dropped. -/
theorem keeps_variant {tag : String} (h : reading.Keeps trimmed) :
    (ofVariant tag reading).Keeps (Json.trimObject [(tag, trimmed)]) := by
  intro shape x hx
  obtain ht | ⟨-, hu⟩ := Option.or_eq_some_iff.1 hx
  · obtain ⟨data, hv, hd⟩ := tagged_of_ofTagged ht fun data hd => (h _ _ hd).1
    obtain ⟨hp, hs⟩ := variant?_of_tagged hv
    refine ⟨hv ▸ nofun, ?_⟩
    rw [toJson_of_tagged hv, (h _ _ hd).2]
    simp [Json.trimObject, hp, hs]
  · obtain ⟨_, -, hn⟩ := Option.bind_eq_some_iff.1 hu
    have hv := named_of_ofName hn
    obtain ⟨hp, hs⟩ := variant?_of_named hv
    refine ⟨hv ▸ nofun, ?_⟩
    rw [toJson_of_named hv]
    simp [Json.trimObject, hp, hs]

theorem lookup_map {β γ : Type*} (f : β → γ) (fields : List (String × β)) (key : String) :
    (fields.map (Prod.map id f)).lookup key = (fields.lookup key).map f := by
  induction fields with
  | nil => rfl
  | cons field fields ih =>
    obtain ⟨name, value⟩ := field
    simp only [List.map_cons, Prod.map, id, List.lookup_cons, ih]
    split <;> rfl

theorem mem_of_lookup {β : Type*} {fields : List (String × β)} {key : String} {value : β}
    (h : fields.lookup key = some value) : value ∈ fields.map Prod.snd := by
  induction fields with
  | nil => cases h
  | cons field fields ih =>
    obtain ⟨name, first⟩ := field
    simp only [List.lookup_cons] at h
    split at h
    · simp [Option.some.inj h]
    · exact List.mem_cons_of_mem _ (ih h)

theorem keeps_field {fields : List (String × Json)}
    (h : ∀ j ∈ fields.map Prod.snd, j.read.Keeps j.trim) (key : String) :
    (field (fields.map (Prod.map id Json.read)) key).Keeps fun shape =>
      Json.trimField (fields.map (Prod.map id Json.trim)) (key, shape) := by
  simp only [field, Json.trimField, lookup_map]
  cases hj : fields.lookup key with
  | none => exact keeps_absent
  | some j => exact h j (mem_of_lookup hj)

theorem trimObject_record {fields : List (String × (Shape → Json))} {shape : Shape}
    (hp : shape.parts ≠ []) :
    Json.trimObject fields shape =
      .object (shape.parts.map fun part => (part.1, Json.trimField fields part)) := by
  unfold Json.trimObject
  split
  · contradiction
  · rfl

theorem keeps_object {fields : List (String × Json)}
    (h : ∀ j ∈ fields.map Prod.snd, j.read.Keeps j.trim) :
    (ofObject (fields.map (Prod.map id Json.read))).Keeps
      (Json.trimObject (fields.map (Prod.map id Json.trim))) := by
  intro shape x hx
  unfold ofObject at hx
  split at hx
  case h_1 tag data hk hf =>
    obtain _ | ⟨⟨key, j⟩, _ | _⟩ := fields <;> cases hf
    exact keeps_variant (h j List.mem_cons_self) shape x hx
  case h_2 => cases hx
  case h_3 =>
    obtain ⟨parts, hv, -⟩ := record_of_ofFields hx
    rw [trimObject_record (parts_ne_nil hv)]
    have hk : List.Forall₂ Keeps
        (shape.fieldNames.map (field (fields.map (Prod.map id Json.read))))
        (shape.fieldNames.map fun key item =>
          Json.trimField (fields.map (Prod.map id Json.trim)) (key, item)) := by
      simp only [List.forall₂_map_left_iff, List.forall₂_map_right_iff, List.forall₂_same]
      exact fun key _ => keeps_field h key
    obtain ⟨hs, ht⟩ := keeps_fields hk shape x hx
    refine ⟨hs, ht.trans ?_⟩
    simp [fieldNames_eq, List.zipWith_map_right, List.zipWith_self]

end Reading

namespace Json

mutual

theorem keeps_read : (j : Json) → j.read.Keeps j.trim
  | null => Reading.keeps_null
  | bool b => (Reading.keeps_bool b).present
  | natural n => (Reading.keeps_natural n).present
  | numeral _ => nofun
  | string s => (Reading.keeps_string s).present
  | array items => by
    have := (Reading.keeps_array (keeps_items items)).present
    rwa [← readItems_eq, ← trimItems_eq] at this
  | object fields => by
    have := (Reading.keeps_object (keeps_fields fields)).present
    rwa [← readFields_eq, ← trimFields_eq] at this

theorem keeps_items : (items : List Json) →
    List.Forall₂ Reading.Keeps (items.map read) (items.map trim)
  | [] => .nil
  | j :: js => .cons (keeps_read j) (keeps_items js)

theorem keeps_fields : (fields : List (String × Json)) →
    ∀ j ∈ fields.map Prod.snd, j.read.Keeps j.trim
  | [] => by simp
  | (_, j) :: fields => List.forall_mem_cons.2 ⟨keeps_read j, keeps_fields fields⟩

end

end Json

namespace Reading

open Shape

variable {shape : Shape} {values : List Reading} {reading : Reading}

theorem isSome_of_present (h : (reading.present shape).isSome = true) :
    (reading shape.base).isSome = true := by
  cases shape with
  | option item => simpa [present, base] using h
  | _ => exact h

/-- All items of a list that is read are. -/
theorem isSome_of_items {item : Shape} (h : (ofArray values (.list item)).isSome = true) :
    ∀ value ∈ values, (value item).isSome = true := by
  simp only [ofArray] at h
  induction values with
  | nil => simp
  | cons value values ih =>
    obtain ⟨as, has⟩ := Option.isSome_iff_exists.1 h
    simp only [List.mapM_cons, Option.bind_eq_bind, Option.bind_eq_some_iff] at has
    obtain ⟨a, ha, as', has, -⟩ := has
    exact List.forall_mem_cons.2 ⟨Option.isSome_of_eq_some ha, ih (Option.isSome_of_eq_some has)⟩

theorem ofObject_variant {tag : String} (hs : shape.parts = []) :
    ofObject [(tag, reading)] shape = ofVariant tag reading shape := by
  have hk : shape.fieldNames = [] := by rw [fieldNames_eq, hs, List.map_nil]
  rw [ofObject]
  exact hk

/-- The data of a variant that carries some is read. -/
theorem isSome_of_variant {tag : String} {carried : Shape} (hs : shape.variant? tag = some carried)
    (hr : reading.Keeps trimmed) (h : (ofVariant tag reading shape).isSome = true) :
    (reading carried).isSome = true := by
  obtain ⟨x, hx⟩ := Option.isSome_iff_exists.1 h
  obtain ht | ⟨-, hu⟩ := Option.or_eq_some_iff.1 hx
  · obtain ⟨data, hv, hd⟩ := tagged_of_ofTagged ht fun data hd => (hr _ _ hd).1
    obtain rfl := Option.some.inj (hs.symm.trans (variant?_of_tagged hv).2)
    exact Option.isSome_of_eq_some hd
  · obtain ⟨_, -, hn⟩ := Option.bind_eq_some_iff.1 hu
    cases hs.symm.trans (variant?_of_named (named_of_ofName hn)).2

/-- All parts of a record that is read are, those that are absent included. -/
theorem isSome_of_parts {fields : List (String × Reading)} (hs : shape.parts ≠ [])
    (h : (ofObject fields shape).isSome = true) :
    ∀ part ∈ shape.parts, (field fields part.1 part.2).isSome = true := by
  have hk : shape.fieldNames ≠ [] := by simpa [fieldNames_eq] using hs
  obtain ⟨x, hx⟩ := Option.isSome_iff_exists.1 h
  unfold ofObject at hx
  split at hx
  · contradiction
  · contradiction
  obtain ⟨data, hv, hf⟩ := record_of_ofFields hx
  rw [fieldNames_eq, List.map_map, List.forall₂_map_left_iff] at hf
  have hshapes := shapes_of_record hv
  generalize shape.parts = parts at hf hshapes
  clear hv hs hk h hx
  induction hf with
  | nil => simp
  | cons ha _ ih =>
    obtain ⟨hshape, hshapes⟩ := List.cons.inj hshapes
    refine List.forall_mem_cons.2 ⟨?_, ih hshapes⟩
    rw [← hshape]
    exact Option.isSome_of_eq_some ha

end Reading

namespace Json

/-- Where all is given by name, what is kept of a value that is read is the value without the fields
that its records do not know, and with `null` for what is absent. -/
theorem pared_trim {j : Json} {shape : Shape} (hn : j.ByName shape)
    (h : (j.read shape).isSome = true) : Pared shape j (j.trim shape) := by
  induction hn with
  | @leaf j shape hj =>
    cases j with
    | array | object => cases hj
    | _ => exact .leaf hj
  | @list items shape item hs _ ih =>
    have hitems := Reading.isSome_of_present h
    rw [readItems_eq, hs] at hitems
    have hread := Reading.isSome_of_items hitems
    have htrim : (array items).trim shape = array (items.map (trim · item)) := by
      rw [trim, trimItems_eq, hs, trimArray, List.map_map]
      rfl
    rw [htrim]
    exact .list hs fun j hj => ih j hj (hread _ (List.mem_map_of_mem hj))
  | @variant tag data shape carried hs _ ih =>
    have hparts := Shape.parts_of_variant? hs
    have hvariant : (Reading.ofObject [(tag, data.read)] shape.base).isSome = true :=
      Reading.isSome_of_present h
    rw [Reading.ofObject_variant hparts] at hvariant
    have hdata := Reading.isSome_of_variant hs (keeps_read data) hvariant
    have htrim : (object [(tag, data)]).trim shape = object [(tag, data.trim carried)] := by
      change trimObject [(tag, data.trim)] shape.base = _
      simp [trimObject, hparts, hs, tagged]
    rw [htrim]
    exact .variant hs (ih hdata)
  | @record fields shape hs _ ih =>
    have hparts := Reading.isSome_of_parts hs (Reading.isSome_of_present h)
    rw [readFields_eq] at hparts
    rw [trim, trimFields_eq, Reading.trimObject_record hs]
    refine .record hs (fun part hp j hj => ?_) fun part hp hnone => ?_
    · have hread := hparts part hp
      rw [Reading.field, Reading.lookup_map, hj] at hread
      rw [trimField, Reading.lookup_map, hj]
      exact ih part hp j hj hread
    · have habsent := hparts part hp
      rw [Reading.field, Reading.lookup_map, hnone] at habsent
      refine ⟨by rw [trimField, Reading.lookup_map, hnone]; rfl, ?_⟩
      cases hshape : part.2 with
      | option item => exact ⟨item, rfl⟩
      | _ => rw [hshape] at habsent; cases habsent

/-- Where all is given by name, what is written for a value that is read is what it was read from,
without the fields that its records do not know and with `null` for what is absent. -/
theorem pared_of_read {j : Json} {shape : Shape} {x : shape.Carrier} (hn : j.ByName shape)
    (hx : j.read shape = some x) : Pared shape j (shape.toJson x) := by
  rw [(keeps_read j shape x hx).2]
  exact pared_trim hn (Option.isSome_of_eq_some hx)

/-- The fields of what is written for a record are what is written for its parts. -/
theorem written_field {shape : Shape} {x : shape.Carrier} {data : List Shaped}
    (hv : shape.view x = .record data) {part : String × Shape} (hp : part ∈ shape.parts) {j : Json}
    (hj : (shape.fieldNames.zip (data.map fun d => d.1.toJson d.2)).lookup part.1 = some j) :
    ∃ d ∈ data, d.1 = part.2 ∧ d.1.toJson d.2 = j := by
  obtain ⟨i, hi, rfl⟩ := List.mem_iff_getElem.1 hp
  have hlength : shape.fieldNames.length = (data.map fun d => d.1.toJson d.2).length := by
    rw [List.length_map, Shape.length_of_record hv]
  have hfound := map_lookup_zip (Shape.fieldNames_nodup shape) hlength
  have hshape := congrArg (·[i]?) (Shape.shapes_of_record hv)
  have hvalue := congrArg (·[i]?) hfound
  simp only [List.getElem?_map, Shape.fieldNames_eq, List.getElem?_eq_getElem hi,
    Option.map_some] at hshape hvalue
  rw [Shape.fieldNames_eq] at hj
  rw [hj] at hvalue
  cases hd : data[i]? with
  | none => simp [hd] at hshape
  | some d =>
    rw [hd, Option.map_some, Option.some.injEq] at hshape
    simp only [hd, Option.map_some, Option.some.injEq] at hvalue
    exact ⟨d, List.mem_of_getElem? hd, hshape, hvalue.symm⟩

/-- What is written gives everything by name. -/
def NamesAll (j : Json) : Prop :=
  ∀ (shape : Shape) (x : shape.Carrier), shape.Fits x → shape.toJson x = j → j.ByName shape

theorem ByName.option {j : Json} {item : Shape} (hn : item.isNullable = false)
    (h : j.ByName item) : j.ByName (.option item) := by
  have hbase := Shape.base_eq hn
  cases h with
  | leaf hj => exact .leaf hj
  | list hs h => exact .list (hbase.symm.trans hs) h
  | variant hs h => exact .variant (hbase ▸ hs) h
  | record hs h => exact .record (hbase ▸ hs) (hbase ▸ h)

theorem namesAll_of_written {j : Json} (h : ∀ (shape : Shape) (x : shape.Carrier),
    shape.isNullable = false → shape.Fits x → shape.Written x j → j.ByName shape) : j.NamesAll := by
  intro shape x hx hj
  cases hn : shape.isNullable with
  | false => exact h shape x hn hx (hj ▸ Shape.written_toJson hn hx)
  | true =>
    cases shape with
    | unit => exact .leaf (hj ▸ rfl)
    | option item =>
      cases x with
      | none => exact .leaf (hj ▸ rfl)
      | some a =>
        obtain ⟨hi, ha⟩ := hx
        exact .option hi (h item a hi (ha a rfl) (hj ▸ Shape.written_toJson hi (ha a rfl)))
    | _ => cases hn

theorem namesAll_array {items : List Json} (h : ∀ j ∈ items, j.NamesAll) :
    (array items).NamesAll := by
  refine namesAll_of_written fun shape x hn hx hw => ?_
  cases hw with
  | list item as =>
    refine .list rfl fun j hj => ?_
    obtain ⟨a, ha, rfl⟩ := List.mem_map.1 hj
    exact h _ hj item a (hx a ha) rfl

theorem namesAll_object {fields : List (String × Json)}
    (h : ∀ j ∈ fields.map Prod.snd, j.NamesAll) : (object fields).NamesAll := by
  refine namesAll_of_written fun shape x hn hx hw => ?_
  have hbase := Shape.base_eq hn
  cases hw with
  | @tagged _ _ tag data hv =>
    refine .variant (hbase.symm ▸ (Shape.variant?_of_tagged hv).2) ?_
    exact h _ List.mem_cons_self data.1 data.2 (Shape.fits_of_tagged hv) rfl
  | @record _ _ parts hv =>
    refine .record (hbase.symm ▸ Shape.parts_ne_nil hv) fun part hp j hj => ?_
    rw [hbase] at hp
    obtain ⟨d, hd, hshape, rfl⟩ := written_field hv hp hj
    have hmem : d.1.toJson d.2 ∈
        (shape.fieldNames.zip (parts.map fun part => part.1.toJson part.2)).map Prod.snd := by
      rw [List.map_snd_zip (by simp [Shape.length_of_record hv])]
      exact List.mem_map_of_mem hd
    rw [← hshape]
    exact h _ hmem d.1 d.2 (Shape.fits_of_record hv d hd) rfl

mutual

theorem namesAll : (j : Json) → j.NamesAll
  | array items => namesAll_array (namesAll_items items)
  | object fields => namesAll_object (namesAll_fields fields)
  | null | bool _ | natural _ | numeral _ | string _ => fun _ _ _ _ => .leaf rfl

theorem namesAll_items : (items : List Json) → ∀ j ∈ items, j.NamesAll
  | [] => by simp
  | j :: js => List.forall_mem_cons.2 ⟨namesAll j, namesAll_items js⟩

theorem namesAll_fields : (fields : List (String × Json)) → ∀ j ∈ fields.map Prod.snd, j.NamesAll
  | [] => by simp
  | (_, j) :: fields => List.forall_mem_cons.2 ⟨namesAll j, namesAll_fields fields⟩

end

end Json

/-- What is written for a value of a node type gives everything by name. -/
theorem Shape.byName_toJson (shape : Shape) (hs : shape.isNode = true) (x : shape.Carrier)
    (hx : shape.Holds x) : (shape.toJson x).ByName shape :=
  Json.namesAll _ shape x (fits_of_isNode hs hx) rfl

/-- A value of a node type is read from what is written for it, and what reads as a value is written
again without its unknown fields and with `null` for what is absent. -/
theorem Shape.json_round_trip (shape : Shape) (hs : shape.isNode = true) :
    (∀ x : shape.Carrier, shape.Holds x → (shape.toJson x).Bounded →
      (shape.toJson x).read shape = some x) ∧
    ∀ (j : Json) (x : shape.Carrier), j.read shape = some x → shape.toJson x = j.trim shape :=
  ⟨fun x hx hb => Json.rereads _ hb shape x (fits_of_isNode hs hx) rfl,
    fun j x hx => (Json.keeps_read j shape x hx).2⟩

/-- A hole with a reversed span, and an `import` without `args` that has a field `note`. -/
theorem Shape.json_round_trip_hole_import :
    (let hole : StringPart := .nameHole ⟨true, [], ⟨5, 2⟩⟩
     (Shape.hole.toJson hole).read .hole = some hole) ∧
    let path := Json.object [("relative", .bool false), ("segments", .array []),
      ("span", .object [("start", .natural 7), ("end", .natural 7)])]
    let span := Json.object [("start", .natural 0), ("end", .natural 9)]
    Shape.importDecl.toJson ⟨⟨false, [], ⟨7, 7⟩⟩, none, ⟨0, 9⟩⟩ =
      (Json.object [("note", .null), ("span", span), ("path", path)]).trim .importDecl :=
  ⟨(Shape.json_round_trip .hole rfl).1 _ nofun
      (by simp [Shape.toJson, StringPart.toJson, Json.untagged, Json.tagged, Name.toJson,
        Span.toJson, Json.Bounded, Json.BoundedItems, Json.BoundedFields, UInt64.size]),
    (Shape.json_round_trip .importDecl rfl).2 _ _ rfl⟩

end Script
