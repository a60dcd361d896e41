import Mathlib
import Formulary.Proofs.NameChecks

set_option autoImplicit false

namespace Formulary

namespace Document

/-- What is expected at a place of a document. -/
inductive Role where
  | document
  | metaModel
  | body
  | entity
  | field
  | lookup
  | aggregate
  | list (items : Role)
  /-- A text, or what nothing looks at. -/
  | leaf
  deriving DecidableEq, Repr

namespace Role

/-- The fields of a record, each with its keys and with what is expected there. -/
def fields : Role → List (List String × Role)
  | document => [(["meta-model"], metaModel), (["entities"], list entity)]
  | metaModel => [(["schema"], body)]
  | body => [(["entities"], list entity)]
  | entity => [(["name"], leaf), (["fields"], list field), (["lookups"], list lookup),
      (["aggregations"], list aggregate)]
  | field => [(["name"], leaf), (["type"], leaf), (["formula"], leaf), (["description"], leaf)]
  | lookup => [(["name"], leaf), (["type"], leaf), (["target_entity", "targetEntity"], leaf),
      (["join_condition", "joinCondition"], leaf)]
  | aggregate => [(["name"], leaf), (["formula"], leaf), (["description"], leaf)]
  | list _ => []
  | leaf => []

/-- Whether a key is one of a field. -/
def knows (role : Role) (key : String) : Bool := role.fields.any fun field => field.1.contains key

/-- What is expected behind a key of an object. -/
def member (role : Role) (key : String) : Role :=
  ((role.fields.find? fun field => field.1.contains key).map Prod.snd).getD leaf

/-- What is expected at a place of an array, which is a list or a record. -/
def item : Role → Nat → Role
  | list items, _ => items
  | role, place => (role.fields[place]?.map Prod.snd).getD leaf

/-- Entities and their members may have members with other keys. -/
def isOpen : Role → Bool
  | entity => true
  | field => true
  | lookup => true
  | aggregate => true
  | _ => false

end Role

/-- One change of a value where this role is expected, at the value itself or further inside. -/
inductive Edited : Role → JsonValue → JsonValue → Prop where
  | permuted {role : Role} {members others : List (String × JsonValue)}
      (same : members.Perm others) : Edited role (.object members) (.object others)
  | added {role : Role} {members : List (String × JsonValue)} {key : String} {value : JsonValue}
      (opens : role.isOpen = true) (unknown : role.knows key = false) :
      Edited role (.object members) (.object ((key, value) :: members))
  | member {role : Role} {before after : List (String × JsonValue)} {key : String}
      {value changed : JsonValue} (inner : Edited (role.member key) value changed) :
      Edited role (.object (before ++ (key, value) :: after))
        (.object (before ++ (key, changed) :: after))
  | item {role : Role} {before after : List JsonValue} {value changed : JsonValue}
      (inner : Edited (role.item before.length) value changed) :
      Edited role (.array (before ++ value :: after)) (.array (before ++ changed :: after))

/-- What a document is taken for. An array of one array is a body, written as a record without keys,
unless the inner array starts with a text and so with the name of an entity. -/
def roleOf : JsonValue → Role
  | .array [.array (.string _ :: _)] => .list .entity
  | .array [.array _] => .body
  | .array _ => .list .entity
  | _ => .document

/-- A document after any number of edits. -/
def Relaid : JsonValue → JsonValue → Prop :=
  Relation.ReflTransGen fun value changed => Edited (roleOf value) value changed

def items? : JsonValue → Option (List JsonValue)
  | .array items => some items
  | _ => none

/-- Where this role is expected, the values are decoded alike. -/
def Agree : Role → JsonValue → JsonValue → Prop
  | .document, value, changed => items? value = none →
      wrapped? value = wrapped? changed ∧ body? value = body? changed
  | .metaModel, value, changed => metaModel? value = metaModel? changed
  | .body, value, changed => body? value = body? changed
  | .entity, value, changed => entity? value = entity? changed
  | .field, value, changed => field? value = field? changed
  | .lookup, value, changed => lookup? value = lookup? changed
  | .aggregate, value, changed => aggregate? value = aggregate? changed
  | .list role, value, changed =>
    Option.Rel (List.Forall₂ (Agree role)) (items? value) (items? changed)
  | .leaf, value, changed =>
    text? value = text? changed ∧ optionalText (some value) = optionalText (some changed)

theorem Agree.refl (role : Role) (value : JsonValue) : Agree role value value := by
  induction role generalizing value with
  | list role ih =>
    rw [Agree]
    cases items? value with
    | none => exact .none
    | some items => exact .some (List.forall₂_same.2 fun item _ => ih item)
  | document => exact fun _ => ⟨rfl, rfl⟩
  | leaf => exact ⟨rfl, rfl⟩
  | _ => exact rfl

/-- A field that is there or not. -/
abbrev FieldAgrees (role : Role) : Option JsonValue → Option JsonValue → Prop :=
  Option.Rel (Agree role)

theorem FieldAgrees.refl (role : Role) (field : Option JsonValue) :
    FieldAgrees role field field := by
  cases field with
  | none => exact .none
  | some value => exact .some (.refl role value)

/-- All fields of a record. -/
inductive FieldsAgree : List Role → List (Option JsonValue) → List (Option JsonValue) → Prop where
  | nil : FieldsAgree [] [] []
  | cons {role : Role} {roles : List Role} {field other : Option JsonValue}
      {fields others : List (Option JsonValue)} (first : FieldAgrees role field other)
      (rest : FieldsAgree roles fields others) :
      FieldsAgree (role :: roles) (field :: fields) (other :: others)

theorem FieldsAgree.refl {roles : List Role} {fields : List (Option JsonValue)}
    (length : fields.length = roles.length) : FieldsAgree roles fields fields := by
  induction roles generalizing fields with
  | nil =>
    obtain rfl := List.eq_nil_of_length_eq_zero length
    exact .nil
  | cons role roles ih =>
    obtain ⟨field, rest, rfl⟩ := List.exists_cons_of_length_eq_add_one length
    exact .cons (.refl role field) (ih (by simpa using length))

/-- Behind the keys of each field, the objects have members that are decoded alike. -/
def MembersAgree (role : Role) (members others : List (String × JsonValue)) : Prop :=
  ∀ field ∈ role.fields,
    Option.Rel (FieldAgrees field.2) (memberOf members field.1) (memberOf others field.1)

theorem MembersAgree.of_eq {role : Role} {members others : List (String × JsonValue)}
    (same : ∀ field ∈ role.fields, memberOf members field.1 = memberOf others field.1) :
    MembersAgree role members others := by
  intro field listed
  rw [same field listed]
  cases memberOf others field.1 with
  | none => exact .none
  | some found => exact .some (.refl field.2 found)

theorem memberOf_perm {members others : List (String × JsonValue)} (same : members.Perm others)
    (keys : List String) : memberOf members keys = memberOf others keys := by
  have filtered := same.filter fun member => keys.contains member.1
  unfold memberOf
  generalize members.filter _ = found at filtered
  generalize others.filter _ = again at filtered
  have length := filtered.length_eq
  rcases found with _ | ⟨first, _ | ⟨second, found⟩⟩
  · obtain rfl := List.nil_perm.1 filtered
    rfl
  · obtain rfl := List.singleton_perm.1 filtered
    rfl
  · rcases again with _ | ⟨first, _ | ⟨second, again⟩⟩
    · cases length
    · cases length
    · rfl

theorem memberOf_cons {keys : List String} {key : String} (unknown : keys.contains key = false)
    (value : JsonValue) (members : List (String × JsonValue)) :
    memberOf ((key, value) :: members) keys = memberOf members keys := by
  rw [memberOf, List.filter_cons_of_neg (by simpa using unknown), memberOf]

theorem memberOf_changed {role : Role} {keys : List String} {key : String}
    {value changed : JsonValue} (before after : List (String × JsonValue))
    (agrees : keys.contains key = true → Agree role value changed) :
    Option.Rel (FieldAgrees role) (memberOf (before ++ (key, value) :: after) keys)
      (memberOf (before ++ (key, changed) :: after) keys) := by
  unfold memberOf
  rw [List.filter_append, List.filter_append]
  by_cases known : keys.contains key = true
  · simp only [List.filter_cons, known, ↓reduceIte]
    generalize before.filter _ = front
    generalize after.filter _ = back
    -- With another member of one of these keys, both objects are refused.
    rcases front with _ | ⟨first, _ | ⟨second, front⟩⟩
    · cases back with
      | nil => exact .some (.some (agrees known))
      | cons => exact .none
    · exact .none
    · exact .none
  · simp only [List.filter_cons, known, Bool.false_eq_true, ↓reduceIte]
    split
    · exact .some .none
    · exact .some (.refl role _)
    · exact .none

/-- No two fields of a record share a key. -/
theorem Role.member_eq {role : Role} {field : List String × Role} {key : String}
    (listed : field ∈ role.fields) (known : field.1.contains key = true) :
    role.member key = field.2 := by
  have apart : role.fields.Pairwise fun first second => ∀ key ∈ first.1, key ∉ second.1 := by
    cases role with
    | list => exact .nil
    | _ => decide
  rw [member]
  generalize role.fields = fields at listed apart
  induction fields with
  | nil => cases listed
  | cons first fields ih =>
    obtain ⟨separate, others⟩ := List.pairwise_cons.1 apart
    by_cases here : first.1.contains key = true
    · have same : field = first := by
        rcases List.mem_cons.1 listed with same | later
        · exact same
        · exact absurd (List.contains_iff_mem.1 known)
            (separate field later key (List.contains_iff_mem.1 here))
      rw [List.find?_cons, here, same]
      rfl
    · have later : field ∈ fields := by
        refine (List.mem_cons.1 listed).resolve_left ?_
        rintro rfl
        exact here known
      rw [List.find?_cons, Bool.eq_false_of_not_eq_true here]
      exact ih later others

theorem memberOf_record {fields : List (List String × Role)}
    {members others : List (String × JsonValue)}
    (each : ∀ field ∈ fields,
      Option.Rel (FieldAgrees field.2) (memberOf members field.1) (memberOf others field.1)) :
    Option.Rel (FieldsAgree (fields.map Prod.snd)) (record (fields.map Prod.fst) (.object members))
      (record (fields.map Prod.fst) (.object others)) := by
  rw [record, record]
  induction fields with
  | nil => exact .some .nil
  | cons field fields ih =>
    obtain ⟨first, rest⟩ := List.forall_mem_cons.1 each
    have later := ih rest
    rw [List.map_cons, List.map_cons, List.mapM_cons, List.mapM_cons]
    generalize memberOf members field.1 = found at first ⊢
    generalize memberOf others field.1 = again at first ⊢
    generalize (fields.map Prod.fst).mapM (memberOf members) = more at later ⊢
    generalize (fields.map Prod.fst).mapM (memberOf others) = moreAgain at later ⊢
    cases first with
    | none => exact .none
    | some agrees =>
      cases later with
      | none => exact .none
      | some others => exact .some (.cons agrees others)

/-- The fields of a record that is written as an array, which may stop early. -/
theorem fieldsAgree_array {roles : List Role} {before after : List JsonValue}
    {value changed : JsonValue} (fits : (before ++ value :: after).length ≤ roles.length)
    (agrees : ∀ role ∈ roles[before.length]?, Agree role value changed) :
    FieldsAgree roles
      ((before ++ value :: after).map some ++
        List.replicate (roles.length - (before ++ value :: after).length) none)
      ((before ++ changed :: after).map some ++
        List.replicate (roles.length - (before ++ changed :: after).length) none) := by
  induction before generalizing roles with
  | nil =>
    cases roles with
    | nil => simp at fits
    | cons role roles =>
      refine .cons (.some (agrees role rfl)) (.refl ?_)
      simp at fits ⊢
      omega
  | cons item before ih =>
    cases roles with
    | nil => simp at fits
    | cons role roles =>
      have later := ih (by simpa using fits) (by simpa using agrees)
      simp only [List.cons_append, List.map_cons, List.length_cons, Nat.add_sub_add_right]
      exact .cons (.refl role _) later

theorem array_record {fields : List (List String × Role)} {before after : List JsonValue}
    {value changed : JsonValue}
    (agrees : Agree ((fields[before.length]?.map Prod.snd).getD .leaf) value changed) :
    Option.Rel (FieldsAgree (fields.map Prod.snd))
      (record (fields.map Prod.fst) (.array (before ++ value :: after)))
      (record (fields.map Prod.fst) (.array (before ++ changed :: after))) := by
  have same : (before ++ changed :: after).length = (before ++ value :: after).length := by simp
  rw [record, record, same, List.length_map]
  by_cases fits : (before ++ value :: after).length ≤ fields.length
  · rw [if_pos fits, if_pos fits]
    have found := @fieldsAgree_array (fields.map Prod.snd) before after value changed
      (by simpa using fits) (by
        intro role there
        rw [List.getElem?_map] at there
        rw [there] at agrees
        exact agrees)
    rw [List.length_map, same] at found
    exact .some found
  · rw [if_neg fits, if_neg fits]
    exact .none

section Decoding

variable {value changed : JsonValue} {field other : Option JsonValue}

theorem FieldAgrees.requiredText_eq (agrees : FieldAgrees .leaf field other) :
    requiredText field = requiredText other := by
  cases agrees with
  | none => rfl
  | some alike => exact alike.1

theorem FieldAgrees.textOrEmpty_eq (agrees : FieldAgrees .leaf field other) :
    textOrEmpty field = textOrEmpty other := by
  cases agrees with
  | none => rfl
  | some alike => exact alike.1

theorem FieldAgrees.optionalText_eq (agrees : FieldAgrees .leaf field other) :
    optionalText field = optionalText other := by
  cases agrees with
  | none => rfl
  | some alike => exact alike.2

theorem listOf_eq {α : Type} {role : Role} {decode : JsonValue → Option α}
    (alike : ∀ item again, Agree role item again → decode item = decode again)
    (agrees : Agree (.list role) value changed) : listOf decode value = listOf decode changed := by
  have unfolded (value : JsonValue) :
      listOf decode value = (items? value).bind (·.mapM decode) := by
    cases value <;> rfl
  rw [unfolded, unfolded]
  rw [Agree] at agrees
  generalize items? value = items at agrees
  generalize items? changed = others at agrees
  cases agrees with
  | none => rfl
  | @some items others each =>
    rw [Option.bind_some, Option.bind_some]
    induction each with
    | nil => rfl
    | cons first rest ih => rw [List.mapM_cons, List.mapM_cons, alike _ _ first, ih]

theorem FieldAgrees.listOrEmpty_eq {α : Type} {role : Role} {decode : JsonValue → Option α}
    (agrees : FieldAgrees (.list role) field other)
    (alike : ∀ item again, Agree role item again → decode item = decode again) :
    listOrEmpty decode field = listOrEmpty decode other := by
  cases agrees with
  | none => rfl
  | some inner => exact listOf_eq alike inner

/-- Records whose fields are decoded alike. -/
def RecordAgrees (role : Role) (value changed : JsonValue) : Prop :=
  Option.Rel (FieldsAgree (role.fields.map Prod.snd)) (record (role.fields.map Prod.fst) value)
    (record (role.fields.map Prod.fst) changed)

theorem RecordAgrees.bind_eq {α : Type} {role : Role}
    {next : List (Option JsonValue) → Option α} (agrees : RecordAgrees role value changed)
    (alike : ∀ fields others, FieldsAgree (role.fields.map Prod.snd) fields others →
      next fields = next others) :
    (record (role.fields.map Prod.fst) value >>= next) =
      (record (role.fields.map Prod.fst) changed >>= next) := by
  rw [RecordAgrees] at agrees
  generalize record _ value = found at agrees ⊢
  generalize record _ changed = again at agrees ⊢
  cases agrees with
  | none => rfl
  | some each => exact alike _ _ each

theorem field?_eq (agrees : RecordAgrees .field value changed) : field? value = field? changed := by
  refine agrees.bind_eq fun fields others each => ?_
  obtain _ | ⟨name, _ | ⟨typeName, _ | ⟨formula, _ | ⟨description, ⟨⟩⟩⟩⟩⟩ := each
  simp only [name.requiredText_eq, typeName.optionalText_eq, formula.textOrEmpty_eq,
    description.textOrEmpty_eq]

theorem lookup?_eq (agrees : RecordAgrees .lookup value changed) :
    lookup? value = lookup? changed := by
  refine agrees.bind_eq fun fields others each => ?_
  obtain _ | ⟨name, _ | ⟨typeName, _ | ⟨target, _ | ⟨joinCondition, ⟨⟩⟩⟩⟩⟩ := each
  simp only [name.requiredText_eq, typeName.optionalText_eq, target.optionalText_eq,
    joinCondition.optionalText_eq]

theorem aggregate?_eq (agrees : RecordAgrees .aggregate value changed) :
    aggregate? value = aggregate? changed := by
  refine agrees.bind_eq fun fields others each => ?_
  obtain _ | ⟨name, _ | ⟨formula, _ | ⟨description, ⟨⟩⟩⟩⟩ := each
  simp only [name.requiredText_eq, formula.textOrEmpty_eq, description.textOrEmpty_eq]

theorem entity?_eq (agrees : RecordAgrees .entity value changed) :
    entity? value = entity? changed := by
  refine agrees.bind_eq fun fields others each => ?_
  obtain _ | ⟨name, _ | ⟨fields, _ | ⟨lookups, _ | ⟨aggregates, ⟨⟩⟩⟩⟩⟩ := each
  simp only [name.requiredText_eq, fields.listOrEmpty_eq fun _ _ => id,
    lookups.listOrEmpty_eq fun _ _ => id, aggregates.listOrEmpty_eq fun _ _ => id]

theorem body?_eq (agrees : RecordAgrees .body value changed) : body? value = body? changed := by
  refine agrees.bind_eq fun fields others each => ?_
  obtain _ | ⟨entities, ⟨⟩⟩ := each
  cases entities with
  | none => rfl
  | some inner => exact listOf_eq (fun _ _ => id) inner

theorem metaModel?_eq (agrees : RecordAgrees .metaModel value changed) :
    metaModel? value = metaModel? changed := by
  refine agrees.bind_eq fun fields others each => ?_
  obtain _ | ⟨schema, ⟨⟩⟩ := each
  cases schema with
  | none => rfl
  | some inner => exact inner

/-- Values that agree as records agree in their role. -/
theorem agree_of_record {role : Role} (isRecord : role.fields ≠ []) (other : role ≠ .document)
    (agrees : RecordAgrees role value changed) : Agree role value changed := by
  cases role with
  | document => exact absurd rfl other
  | metaModel => exact metaModel?_eq agrees
  | body => exact body?_eq agrees
  | entity => exact entity?_eq agrees
  | field => exact field?_eq agrees
  | lookup => exact lookup?_eq agrees
  | aggregate => exact aggregate?_eq agrees
  | list => exact absurd rfl isRecord
  | leaf => exact absurd rfl isRecord

end Decoding

theorem agree_of_members {role : Role} {members others : List (String × JsonValue)}
    (agrees : MembersAgree role members others) :
    Agree role (.object members) (.object others) := by
  have asRecord : RecordAgrees role (.object members) (.object others) := memberOf_record agrees
  cases role with
  | document =>
    intro _
    have wrapped := agrees (["meta-model"], .metaModel) (by simp [Role.fields])
    have entities := agrees (["entities"], .list .entity) (by simp [Role.fields])
    refine ⟨?_, body?_eq (@memberOf_record Role.body.fields members others ?_)⟩
    · rw [wrapped?, wrapped?]
      generalize memberOf members _ = found at wrapped ⊢
      generalize memberOf others _ = again at wrapped ⊢
      cases wrapped with
      | none => rfl
      | some field =>
        cases field with
        | none => rfl
        | some inner => exact inner
    · simpa [Role.fields] using entities
  | list => exact .none
  | leaf => exact ⟨rfl, rfl⟩
  | _ => exact agree_of_record (by simp [Role.fields]) (by simp) asRecord

theorem agree_of_item {role : Role} {before after : List JsonValue} {value changed : JsonValue}
    (agrees : Agree (role.item before.length) value changed) :
    Agree role (.array (before ++ value :: after)) (.array (before ++ changed :: after)) := by
  cases role with
  | document => exact fun isObject => nomatch isObject
  | list role =>
    refine .some (List.rel_append ?_ (.cons agrees ?_))
    · exact List.forall₂_same.2 fun item _ => .refl role item
    · exact List.forall₂_same.2 fun item _ => .refl role item
  | leaf => exact ⟨rfl, rfl⟩
  | _ => exact agree_of_record (by simp [Role.fields]) (by simp) (array_record agrees)

/-- An edit keeps what is decoded from a value. -/
theorem agree_of_edited {role : Role} {value changed : JsonValue}
    (edited : Edited role value changed) : Agree role value changed := by
  induction edited with
  | permuted same => exact agree_of_members (.of_eq fun field _ => memberOf_perm same field.1)
  | @added role members key value opens unknown =>
    refine agree_of_members (.of_eq fun field listed => (memberOf_cons ?_ value members).symm)
    rw [Role.knows, List.any_eq_false] at unknown
    exact Bool.eq_false_of_not_eq_true (unknown field listed)
  | @member role before after key value changed inner ih =>
    -- Only one field can look at the key, so the hypothesis is about the role that it expects.
    refine agree_of_members fun field listed => memberOf_changed before after fun known => ?_
    rw [← Role.member_eq listed known]
    exact ih
  | item inner ih => exact agree_of_item ih

section Whole

variable {role : Role} {value changed : JsonValue}

theorem Edited.ne_string (edited : Edited role value changed) (text : String) :
    value ≠ .string text ∧ changed ≠ .string text := by
  cases edited <;> exact ⟨nofun, nofun⟩

theorem roleOf_unnamed {first : JsonValue} (rest : List JsonValue)
    (other : ∀ text, first ≠ .string text) : roleOf (.array [.array (first :: rest)]) = .body := by
  cases first with
  | string text => exact absurd rfl (other text)
  | _ => rfl

theorem roleOf_single (edited : Edited role value changed) :
    roleOf (.array [changed]) = roleOf (.array [value]) := by
  cases edited with
  | permuted => rfl
  | added => rfl
  | member => rfl
  | @item _ before after value changed inner =>
    cases before with
    | nil =>
      rw [List.nil_append, List.nil_append,
        roleOf_unnamed after fun text => (inner.ne_string text).1,
        roleOf_unnamed after fun text => (inner.ne_string text).2]
    | cons first before => cases first <;> rfl

/-- Two items are too many for a body. -/
theorem roleOf_several (first second : JsonValue) (rest : List JsonValue) :
    roleOf (.array (first :: second :: rest)) = .list .entity := by
  simp [roleOf]

/-- A document stays what it is taken for. -/
theorem roleOf_edited (edited : Edited role value changed) : roleOf changed = roleOf value := by
  cases edited with
  | permuted => rfl
  | added => rfl
  | member => rfl
  | @item _ before after value changed inner =>
    rcases before with _ | ⟨first, _ | ⟨second, before⟩⟩
    · cases after with
      | nil => exact roleOf_single inner
      | cons second after => simp only [List.nil_append, roleOf_several]
    · simp only [List.cons_append, List.nil_append, roleOf_several]
    · simp only [List.cons_append, roleOf_several]

/-- An entity that is written as an array starts with its name. -/
theorem entity?_unnamed {items : List JsonValue}
    (unnamed : ∀ text rest, items ≠ .string text :: rest) : entity? (.array items) = none := by
  rw [entity?, record]
  split
  · cases items with
    | nil => rfl
    | cons first rest =>
      have noText : text? first = none := by
        cases first with
        | string text => exact absurd rfl (unnamed text rest)
        | _ => rfl
      simp only [Option.bind_eq_bind, Option.bind_some, List.map_cons, List.cons_append]
      split
      · rename_i same
        obtain ⟨rfl, -⟩ := List.cons.inj same
        simp [requiredText, noText]
      · rfl
  · rfl

/-- The entities of a document that is taken for this role. -/
def entitiesAs (role : Role) (value : JsonValue) : Option (List Entity) :=
  match role with
  | .list _ => listOf entity? value
  | .body => body? value
  | _ => wrapped? value <|> body? value

theorem roleOf_array (items : List JsonValue) :
    roleOf (.array items) = .list .entity ∨ roleOf (.array items) = .body := by
  unfold roleOf
  split <;> simp_all

theorem entities?_of_noList (noList : listOf entity? value = none) :
    entities? value = (wrapped? value <|> body? value) := by
  rw [entities?, noList]
  cases wrapped? value <;> cases body? value <;> rfl

/-- An array that is taken for a list is no body, and one that is taken for a body is no list. -/
theorem entities?_eq (value : JsonValue) : entities? value = entitiesAs (roleOf value) value := by
  cases value with
  | array items =>
    rcases items with _ | ⟨first, _ | ⟨second, rest⟩⟩
    · rfl
    · cases first with
      | array items =>
        by_cases named : ∃ text rest, items = .string text :: rest
        · obtain ⟨text, rest, rfl⟩ := named
          rfl
        · have unnamed : ∀ text rest, items ≠ .string text :: rest :=
            fun text rest same => named ⟨text, rest, same⟩
          have isBody : roleOf (.array [.array items]) = .body := by
            cases items with
            | nil => rfl
            | cons first rest =>
              exact roleOf_unnamed rest fun text same => unnamed text rest (by rw [same])
          have noList : listOf entity? (.array [.array items]) = none := by
            simp [listOf, entity?_unnamed unnamed]
          rw [entities?_of_noList noList, isBody]
          rfl
      | _ => rfl
    · rw [roleOf_several]
      rfl
  | _ => exact entities?_of_noList rfl

/-- An edit of a document keeps its entities. -/
theorem entities?_edited (edited : Edited (roleOf value) value changed) :
    entities? value = entities? changed := by
  have agrees := agree_of_edited edited
  rw [entities?_eq value, entities?_eq changed, roleOf_edited edited]
  cases value with
  | array items =>
    rcases roleOf_array items with role | role <;> rw [role] at agrees ⊢
    · exact listOf_eq (fun _ _ => id) agrees
    · exact agrees
  | object members =>
    obtain ⟨wrapped, body⟩ := agrees rfl
    exact congrArg₂ (· <|> ·) wrapped body
  | _ => cases edited

end Whole

/-- The list of entities behind a `meta-model`. -/
def behindMetaModel (entities : List JsonValue) : JsonValue :=
  .object [("meta-model", .object [("schema", .object [("entities", .array entities)])])]

/-- The list of entities in an object. -/
def inObject (entities : List JsonValue) : JsonValue := .object [("entities", .array entities)]

theorem entities?_inObject (entities : List JsonValue) :
    entities? (inObject entities) = entities.mapM entity? := by
  have unwrapped : wrapped? (inObject entities) = none := rfl
  have body : body? (inObject entities) = entities.mapM entity? := rfl
  rw [entities?_of_noList rfl, unwrapped, body]
  rfl

theorem entities?_behindMetaModel (entities : List JsonValue) :
    entities? (behindMetaModel entities) = entities.mapM entity? := by
  have wrapped : wrapped? (behindMetaModel entities) = entities.mapM entity? := rfl
  have noBody : body? (behindMetaModel entities) = none := rfl
  rw [entities?_of_noList rfl, wrapped, noBody]
  cases entities.mapM entity? <;> rfl

/-- A list of objects is not taken for a body. -/
theorem entities?_bare {entities : List JsonValue}
    (objects : ∀ entity ∈ entities, ∃ members, entity = .object members) :
    entities? (.array entities) = entities.mapM entity? := by
  have isList : roleOf (.array entities) = .list .entity := by
    rcases entities with _ | ⟨first, _ | ⟨second, rest⟩⟩
    · rfl
    · obtain ⟨members, rfl⟩ := objects first List.mem_cons_self
      rfl
    · exact roleOf_several first second rest
  rw [entities?_eq, isList]
  rfl

end Document

namespace Rulebook

open Document

theorem ofJson_eq {value changed : JsonValue} (same : entities? value = entities? changed) :
    ofJson value = ofJson changed := by
  rw [ofJson, ofJson, same]

theorem ofJson_relaid {value changed : JsonValue} (relaid : Relaid value changed) :
    ofJson value = ofJson changed := by
  induction relaid with
  | refl => rfl
  | tail _ edited ih => exact ih.trans (ofJson_eq (entities?_edited edited))

/-- The layout of a document does not matter. A text is loaded as its value is; a list of objects is
loaded alike in all three shapes; and a document with other orders of members, and with unknown
members in its entities, fields, lookups and aggregates, is loaded as before, even if some of its
members have the same key. -/
theorem ofText_layout :
    (∀ (text : String) (value : JsonValue), value.HeldBy text → ofText text = ofJson value) ∧
    (∀ entities : List JsonValue, (∀ entity ∈ entities, ∃ members, entity = .object members) →
      ofJson (behindMetaModel entities) = ofJson (inObject entities) ∧
      ofJson (inObject entities) = ofJson (.array entities)) ∧
    ∀ value changed : JsonValue, Relaid value changed → ofJson value = ofJson changed := by
  refine ⟨fun text value held => ofText_eq held, fun entities objects => ⟨?_, ?_⟩,
    fun value changed relaid => ofJson_relaid relaid⟩
  · exact ofJson_eq ((entities?_behindMetaModel entities).trans (entities?_inObject entities).symm)
  · exact ofJson_eq ((entities?_inObject entities).trans (entities?_bare objects).symm)

/-- A lookup with an unknown member more, in an entity whose members stand the other way round and
that is not behind a `meta-model` any more. -/
theorem ofText_layout_lookup :
    ofJson (behindMetaModel [.object [("name", .string "A"), ("lookups", .array [.object
        [("name", .string "ys"), ("target_entity", .string "this"),
          ("joinCondition", .string "this.xs.y")]])]]) =
      ofJson (.array [.object [("lookups", .array [.object [("note", .null),
        ("name", .string "ys"), ("target_entity", .string "this"),
          ("joinCondition", .string "this.xs.y")]]), ("name", .string "A")]]) ∧
    ofJson (.array [.object [("lookups", .array [.object [("note", .null),
        ("name", .string "ys"), ("target_entity", .string "this"),
          ("joinCondition", .string "this.xs.y")]]), ("name", .string "A")]]) =
      .ok ⟨[⟨"A", [], [⟨"ys", .derived "this.xs.y"⟩], []⟩]⟩ := by
  obtain ⟨-, shapes, layout⟩ := ofText_layout
  obtain ⟨inObject, bare⟩ := shapes [.object [("name", .string "A"), ("lookups", .array [.object
    [("name", .string "ys"), ("target_entity", .string "this"),
      ("joinCondition", .string "this.xs.y")]])]] (by simp)
  have listed (members others : List (String × JsonValue))
      (inner : Edited .entity (.object members) (.object others)) :
      Edited (roleOf (.array [.object members])) (.array [.object members])
        (.array [.object others]) :=
    @Edited.item (.list .entity) [] [] _ _ inner
  have added (members : List (String × JsonValue)) :
      Edited .entity (.object [("name", .string "A"), ("lookups", .array [.object members])])
        (.object [("name", .string "A"),
          ("lookups", .array [.object (("note", .null) :: members)])]) :=
    @Edited.member .entity [("name", .string "A")] [] "lookups" _ _
      (@Edited.item (.list .lookup) [] [] _ _ (.added rfl rfl))
  have relaid := layout _ _ (.tail (.single (listed _ _ (added [("name", .string "ys"),
    ("target_entity", .string "this"), ("joinCondition", .string "this.xs.y")])))
    (listed _ _ (.permuted (.swap _ _ _))))
  exact ⟨inObject.trans (bare.trans relaid), rfl⟩

end Rulebook

end Formulary
