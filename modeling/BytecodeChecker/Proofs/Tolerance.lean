import Mathlib.Logic.Relation
import BytecodeChecker.Proofs.Fields

/-! What may be changed in a written model without changing the model: each reader rests on the fields of its record, so
it reads the same from a record whose fields are kept. -/
namespace BytecodeChecker

namespace Written

section Reading

variable {α : Type} {fields : List Field} {fit : Json → Prop} {j j' : Json}

def RestsOn (fields : List Field) (read : Json → Option α) : Prop :=
  ∀ body x, read body = some x → ∃ view, body.record? (fields.map (·.name)) = some view ∧
    ∀ body' view', body'.record? (fields.map (·.name)) = some view' →
      (∀ field ∈ fields, field.Kept (Json.member? field.name view) (Json.member? field.name view')) →
      read body' = some x

theorem Reshaped.read (reshaped : Reshaped fields fit j j') (distinct : (fields.map (·.name)).Nodup)
    {read : Json → Option α} (rests : RestsOn fields read) : Keeps read j j' := by
  intro x found
  obtain ⟨view, record, again⟩ := rests j x found
  obtain ⟨view', record', kept⟩ := reshaped.record distinct record
  exact again j' view' record' kept

theorem Reshaped.readTagged {tag : String} (reshaped : Reshaped (.plain tag :: fields) fit j j')
    (distinct : (tag :: fields.map (·.name)).Nodup) {read : Json → Option α} (rests : RestsOn fields read)
    {kind body : Json} (tagged : j.tagged? tag = some (kind, body)) {x : α} (found : read body = some x) :
    ∃ body', j'.tagged? tag = some (kind, body') ∧ read body' = some x := by
  have apart := (List.nodup_cons.mp distinct).1
  obtain ⟨view, record, again⟩ := rests body x found
  obtain ⟨all, whole, there, same⟩ := taggedRecord apart tagged record
  obtain ⟨all', whole', kept⟩ := reshaped.record distinct whole
  have still : Json.member? tag all' = some kind := by
    have first : (Field.plain tag).Kept (Json.member? tag all) (Json.member? tag all') := kept _ List.mem_cons_self
    rw [there] at first
    generalize Json.member? tag all' = held at first
    cases first with
    | same => rfl
    | inside kept => exact congrArg some (Eq.symm kept)
  obtain ⟨body', view', tagged', record', same'⟩ := recordTagged apart whole' still
  refine ⟨body', tagged', again body' view' record' fun field member => ?_⟩
  have named : field.name ∈ fields.map (·.name) := List.mem_map_of_mem member
  rw [← same _ named, ← same' _ named]
  exact kept field (List.mem_cons_of_mem _ member)

variable {field : Field} {read : Json → Option α} {view view' : List (String × Json)} {x : α}

theorem Field.Kept.found (kept : field.Kept (Json.member? field.name view) (Json.member? field.name view'))
    (required : field.default = none) (reads : ∀ v v', field.form.Kept v v' → Keeps read v v')
    (found : Json.field? field.name read view = some x) : Json.field? field.name read view' = some x := by
  unfold Json.field? at found ⊢
  generalize Json.member? field.name view = old, Json.member? field.name view' = new at kept found ⊢
  cases kept with
  | same => exact found
  | spelled default => cases required.symm.trans default
  | inside kept => exact reads _ _ kept x found

theorem Field.Kept.filled {default : α}
    (kept : field.Kept (Json.member? field.name view) (Json.member? field.name view'))
    (spelled : ∀ v, field.default = some v → read v = some default)
    (reads : ∀ v v', field.form.Kept v v' → Keeps read v v')
    (found : Json.fieldOr? field.name read default view = some x) :
    Json.fieldOr? field.name read default view' = some x := by
  unfold Json.fieldOr? at found ⊢
  generalize Json.member? field.name view = old, Json.member? field.name view' = new at kept found ⊢
  cases kept with
  | same => exact found
  | @spelled value chosen => exact (spelled value chosen).trans found
  | inside kept => exact reads _ _ kept x found

theorem plainReads (v v' : Json) (kept : Form.plain.Kept v v') : Keeps read v v' := by
  cases kept
  exact fun x found => found

theorem listReads {form : Form} (reads : ∀ v v', form.Kept v v' → Keeps read v v') (v v' : Json)
    (kept : (Form.list form).Kept v v') : Keeps (Json.list? read) v v' := by
  rcases kept with rfl | ⟨items, items', rfl, rfl, each⟩
  · exact fun xs found => found
  intro xs found
  have all : items.mapM read = some xs := found
  show items'.mapM read = some xs
  clear found
  induction each generalizing xs with
  | nil => exact all
  | cons first _ ih =>
    rw [List.mapM_cons] at all ⊢
    obtain ⟨y, hy, all⟩ := Option.bind_eq_some_iff.mp all
    obtain ⟨ys, hys, last⟩ := Option.bind_eq_some_iff.mp all
    exact Option.bind_eq_some_iff.mpr ⟨y, reads _ _ first y hy, Option.bind_eq_some_iff.mpr ⟨ys, ih ys hys, last⟩⟩

end Reading

section Readers

theorem handlerRests : RestsOn handlerFields Model.handlerOfJson? := by
  intro body h read
  obtain ⟨view, record, read⟩ := Option.bind_eq_some_iff.mp read
  obtain ⟨start, first, read⟩ := Option.bind_eq_some_iff.mp read
  obtain ⟨stop, second, read⟩ := Option.bind_eq_some_iff.mp read
  obtain ⟨target, third, read⟩ := Option.bind_eq_some_iff.mp read
  obtain ⟨className, fourth, last⟩ := Option.bind_eq_some_iff.mp read
  refine ⟨view, record, fun body' view' record' kept => Option.bind_eq_some_iff.mpr ⟨view', record', ?_⟩⟩
  have first := (kept (.plain "start") (by simp [handlerFields])).found rfl plainReads first
  have second := (kept (.plain "end") (by simp [handlerFields])).found rfl plainReads second
  have third := (kept (.plain "handler") (by simp [handlerFields])).found rfl plainReads third
  have fourth := (kept ⟨"class", .plain, some (.str "*")⟩ (by simp [handlerFields])).filled
    (by simp [Json.str?, Handler.anyClass]) plainReads fourth
  exact Option.bind_eq_some_iff.mpr ⟨start, first, Option.bind_eq_some_iff.mpr ⟨stop, second,
    Option.bind_eq_some_iff.mpr ⟨target, third, Option.bind_eq_some_iff.mpr ⟨className, fourth, last⟩⟩⟩⟩

theorem codeReads (v v' : Json) (kept : Form.code.Kept v v') : Keeps Model.Code.ofJson? v v' := by
  intro c found
  obtain ⟨legible, read⟩ := Option.ite_none_right_eq_some.mp found
  exact Option.ite_none_right_eq_some.mpr ⟨kept.1 legible, kept.2 c read⟩

theorem methodRests : RestsOn methodFields Model.Method.ofJson? := by
  intro body m read
  obtain ⟨view, record, read⟩ := Option.bind_eq_some_iff.mp read
  obtain ⟨signature, first, read⟩ := Option.bind_eq_some_iff.mp read
  obtain ⟨native, second, read⟩ := Option.bind_eq_some_iff.mp read
  obtain ⟨maxLocals, third, read⟩ := Option.bind_eq_some_iff.mp read
  obtain ⟨code, fourth, read⟩ := Option.bind_eq_some_iff.mp read
  obtain ⟨handlers, fifth, last⟩ := Option.bind_eq_some_iff.mp read
  refine ⟨view, record, fun body' view' record' kept => Option.bind_eq_some_iff.mpr ⟨view', record', ?_⟩⟩
  have first := (kept (.plain "signature") (by simp [methodFields])).found rfl plainReads first
  have second := (kept ⟨"native", .plain, some (.bool false)⟩ (by simp [methodFields])).filled
    (by simp [Json.bool?]) plainReads second
  have third := (kept ⟨"max_locals", .plain, some (.int 0)⟩ (by simp [methodFields])).filled
    (by simp; exact Json.uint16Read 0) plainReads third
  have fourth := (kept ⟨"code", .list .code, some (.arr [])⟩ (by simp [methodFields])).filled
    (by simp [Json.list?, Json.arr?]) (listReads codeReads) fourth
  have fifth := (kept ⟨"handlers", .list .handler, some (.arr [])⟩ (by simp [methodFields])).filled
    (by simp [Json.list?, Json.arr?]) (listReads fun _ _ kept => kept) fifth
  exact Option.bind_eq_some_iff.mpr ⟨signature, first, Option.bind_eq_some_iff.mpr ⟨native, second,
    Option.bind_eq_some_iff.mpr ⟨maxLocals, third, Option.bind_eq_some_iff.mpr ⟨code, fourth,
      Option.bind_eq_some_iff.mpr ⟨handlers, fifth, last⟩⟩⟩⟩⟩

theorem modelRests : RestsOn modelFields Model.ofJson? := by
  intro body m read
  obtain ⟨view, record, read⟩ := Option.bind_eq_some_iff.mp read
  obtain ⟨name, first, read⟩ := Option.bind_eq_some_iff.mp read
  obtain ⟨entry, second, read⟩ := Option.bind_eq_some_iff.mp read
  obtain ⟨threads, third, read⟩ := Option.bind_eq_some_iff.mp read
  obtain ⟨methods, fourth, read⟩ := Option.bind_eq_some_iff.mp read
  obtain ⟨events, fifth, read⟩ := Option.bind_eq_some_iff.mp read
  obtain ⟨actions, sixth, last⟩ := Option.bind_eq_some_iff.mp read
  refine ⟨view, record, fun body' view' record' kept => Option.bind_eq_some_iff.mpr ⟨view', record', ?_⟩⟩
  have first := (kept (.plain "name") (by simp [modelFields])).found rfl plainReads first
  have second := (kept (.plain "entry") (by simp [modelFields])).found rfl plainReads second
  have third := (kept ⟨"threads", .plain, some (.arr [])⟩ (by simp [modelFields])).filled
    (by simp [Json.list?, Json.arr?]) plainReads third
  have fourth := (kept ⟨"methods", .list .method, none⟩ (by simp [modelFields])).found rfl
    (listReads fun _ _ kept => kept) fourth
  have fifth := (kept ⟨"events", .script, some .null⟩ (by simp [modelFields])).filled
    (by simp [Model.eventsOfJson?]) (fun _ _ kept => kept.2.2) fifth
  have sixth := (kept ⟨"actions", .actions, some (.obj [])⟩ (by simp [modelFields])).filled
    (by simp [Model.actionsOfJson?, Json.obj?, NameMap.ofList]) plainReads sixth
  exact Option.bind_eq_some_iff.mpr ⟨name, first, Option.bind_eq_some_iff.mpr ⟨entry, second,
    Option.bind_eq_some_iff.mpr ⟨threads, third, Option.bind_eq_some_iff.mpr ⟨methods, fourth,
      Option.bind_eq_some_iff.mpr ⟨events, fifth, Option.bind_eq_some_iff.mpr ⟨actions, sixth, last⟩⟩⟩⟩⟩⟩

theorem operandRests {α : Type} {name : String} {read : Json → Option α} {make : α → Model.Code} :
    RestsOn [.plain name] (Model.Code.withOperand? name read make) := by
  intro body c read
  obtain ⟨view, record, read⟩ := Option.bind_eq_some_iff.mp read
  obtain ⟨operand, held, last⟩ := Option.bind_eq_some_iff.mp read
  refine ⟨view, record, fun body' view' record' kept => Option.bind_eq_some_iff.mpr ⟨view', record', ?_⟩⟩
  have held := (kept (.plain name) List.mem_cons_self).found rfl plainReads held
  exact Option.bind_eq_some_iff.mpr ⟨operand, held, last⟩

theorem noFieldsIff {body : Json} : body.noFields? = some () ↔ ∃ view, body.record? [] = some view := by
  cases body with
  | obj members => simp [Json.noFields?, Json.record?]
  | arr items => cases items <;> simp [Json.noFields?, Json.record?]
  | _ => simp [Json.noFields?, Json.record?]

theorem plainRests {c : Model.Code} : RestsOn [] (Model.Code.plain? c) := by
  intro body c' read
  obtain ⟨_, none, last⟩ := Option.map_eq_some_iff.mp read
  obtain ⟨view, record⟩ := noFieldsIff.mp none
  refine ⟨view, record, fun body' view' record' _ => ?_⟩
  exact Option.map_eq_some_iff.mpr ⟨(), noFieldsIff.mpr ⟨view', record'⟩, last⟩

theorem mnemonicRests (mnemonic : String) : RestsOn (codeFields mnemonic) (Model.Code.ofMnemonic? mnemonic) := by
  intro body c read
  have opened := read
  unfold Model.Code.ofMnemonic? at opened
  split at opened
  all_goals
    first
    | exact plainRests body c read
    | exact operandRests body c read
    | cases opened

theorem itemsRests {α β : Type} {form : Form} {read : Json → Option α}
    (reads : ∀ v v', form.Kept v v' → Keeps read v v') (make : List α → β) :
    RestsOn [.items form] fun body => (body.record? ["items"]).bind fun fields =>
      (Json.field? "items" (Json.list? read) fields).bind fun items => some (make items) := by
  intro body x found
  obtain ⟨view, record, found⟩ := Option.bind_eq_some_iff.mp found
  obtain ⟨items, held, last⟩ := Option.bind_eq_some_iff.mp found
  refine ⟨view, record, fun body' view' record' kept => Option.bind_eq_some_iff.mpr ⟨view', record', ?_⟩⟩
  have held := (kept (.items form) List.mem_cons_self).found rfl (listReads reads) held
  exact Option.bind_eq_some_iff.mpr ⟨items, held, last⟩

theorem predicateRests {kind : String} (member : kind ∈ Predicate.kinds) :
    RestsOn (predicateFields kind) (Predicate.ofKind? (Predicate.value? true) kind) := by
  have reads : ∀ v v', Form.predicate.Kept v v' → Keeps (Predicate.value? true) v v' := fun _ _ kept => kept.2 true
  simp only [Predicate.kinds, List.mem_cons, List.not_mem_nil, or_false] at member
  rcases member with rfl | rfl | rfl | rfl
  · intro body p read
    obtain ⟨view, record, read⟩ := Option.bind_eq_some_iff.mp read
    obtain ⟨field, first, read⟩ := Option.bind_eq_some_iff.mp read
    obtain ⟨op, second, read⟩ := Option.bind_eq_some_iff.mp read
    obtain ⟨value, third, last⟩ := Option.bind_eq_some_iff.mp read
    refine ⟨view, record, fun body' view' record' kept => Option.bind_eq_some_iff.mpr ⟨view', record', ?_⟩⟩
    have first := (kept (.plain "field") (by simp [predicateFields])).found rfl plainReads first
    have second := (kept ⟨"op", .comparison, none⟩ (by simp [predicateFields])).found rfl plainReads second
    have third := (kept (.plain "value") (by simp [predicateFields])).found rfl plainReads third
    exact Option.bind_eq_some_iff.mpr ⟨field, first, Option.bind_eq_some_iff.mpr ⟨op, second,
      Option.bind_eq_some_iff.mpr ⟨value, third, last⟩⟩⟩
  · exact itemsRests reads Predicate.all
  · exact itemsRests reads Predicate.any
  · intro body p read
    obtain ⟨view, record, read⟩ := Option.bind_eq_some_iff.mp read
    obtain ⟨inner, held, last⟩ := Option.bind_eq_some_iff.mp read
    refine ⟨view, record, fun body' view' record' kept => Option.bind_eq_some_iff.mpr ⟨view', record', ?_⟩⟩
    have held := (kept ⟨"inner", .predicate, none⟩ (by simp [predicateFields])).found rfl reads held
    exact Option.bind_eq_some_iff.mpr ⟨inner, held, last⟩

theorem scriptRests {kind : String} (member : kind ∈ Script.kinds) :
    RestsOn (scriptFields kind) (Script.ofKind? (Script.value? true) (Predicate.value? true) kind) := by
  have reads : ∀ v v', Form.script.Kept v v' → Keeps (Script.value? true) v v' := fun _ _ kept => kept.2.1 true
  simp only [Script.kinds, List.mem_cons, List.not_mem_nil, or_false] at member
  rcases member with rfl | rfl | rfl | rfl | rfl | rfl
  · intro body s read
    obtain ⟨view, record, read⟩ := Option.bind_eq_some_iff.mp read
    obtain ⟨name, first, read⟩ := Option.bind_eq_some_iff.mp read
    obtain ⟨args, second, last⟩ := Option.bind_eq_some_iff.mp read
    refine ⟨view, record, fun body' view' record' kept => Option.bind_eq_some_iff.mpr ⟨view', record', ?_⟩⟩
    have first := (kept (.plain "name") (by simp [scriptFields])).found rfl plainReads first
    have second := (kept ⟨"args", .plain, some (.arr [])⟩ (by simp [scriptFields])).filled
      (by simp [Json.list?, Json.arr?]) plainReads second
    exact Option.bind_eq_some_iff.mpr ⟨name, first, Option.bind_eq_some_iff.mpr ⟨args, second, last⟩⟩
  · intro body s read
    obtain ⟨view, record, read⟩ := Option.bind_eq_some_iff.mp read
    obtain ⟨name, first, read⟩ := Option.bind_eq_some_iff.mp read
    obtain ⟨predicate, second, last⟩ := Option.bind_eq_some_iff.mp read
    refine ⟨view, record, fun body' view' record' kept => Option.bind_eq_some_iff.mpr ⟨view', record', ?_⟩⟩
    have first := (kept (.plain "name") (by simp [scriptFields])).found rfl plainReads first
    have second := (kept ⟨"predicate", .predicate, none⟩ (by simp [scriptFields])).found rfl
      (fun _ _ kept => kept.2 true) second
    exact Option.bind_eq_some_iff.mpr ⟨name, first, Option.bind_eq_some_iff.mpr ⟨predicate, second, last⟩⟩
  · intro body s read
    obtain ⟨_, none, last⟩ := Option.bind_eq_some_iff.mp read
    obtain ⟨view, record⟩ := noFieldsIff.mp none
    refine ⟨view, record, fun body' view' record' _ => ?_⟩
    exact Option.bind_eq_some_iff.mpr ⟨(), noFieldsIff.mpr ⟨view', record'⟩, last⟩
  · exact itemsRests reads Script.sequence
  · exact itemsRests reads Script.alternatives
  · exact itemsRests reads Script.interleave

end Readers

section Legibility

variable {fields : List Field} {fit : Json → Prop} {j j' : Json}

def Form.strict : Form → Bool
  | .handler | .method | .model => false
  | .list item => item.strict
  | _ => true

def Field.Strict (field : Field) : Prop :=
  field.form.strict = true ∧ ∀ v, field.default = some v → v.legible = true

theorem itemsLegibleIff {items : List Json} : Json.itemsLegible items = true ↔ ∀ v ∈ items, v.legible = true := by
  induction items with
  | nil => simp [Json.itemsLegible]
  | cons v rest ih => simp [Json.itemsLegible, ih]

theorem membersLegibleIff {members : List (String × Json)} :
    Json.membersLegible members = true ↔ ∀ m ∈ members, m.2.legible = true := by
  induction members with
  | nil => simp [Json.membersLegible]
  | cons m rest ih => simp [Json.membersLegible, ih]

theorem Form.Kept.legible {form : Form} (strict : form.strict = true) (kept : form.Kept j j')
    (legible : j.legible = true) : j'.legible = true := by
  induction form generalizing j j' with
  | plain | comparison | actions =>
    cases kept
    exact legible
  | predicate => exact kept.1 legible
  | script => exact kept.1 legible
  | code => exact kept.1 legible
  | handler | method | model => cases strict
  | list item ih =>
    rcases kept with rfl | ⟨items, items', rfl, rfl, each⟩
    · exact legible
    have old := itemsLegibleIff.mp legible
    refine itemsLegibleIff.mpr ?_
    clear legible
    induction each with
    | nil => simp
    | cons first _ rest =>
      simp only [List.forall_mem_cons] at old ⊢
      exact ⟨ih strict first old.1, rest old.2⟩

theorem Changed.legible {members members' : List (String × Json)} (changed : Changed fields fit members members')
    (strict : ∀ field ∈ fields, field.Strict) (fits : ∀ v, fit v → v.legible = true)
    (old : ∀ m ∈ members, m.2.legible = true) : ∀ m ∈ members', m.2.legible = true := by
  cases changed with
  | added unknown room =>
    simp only [List.forall_mem_append, List.forall_mem_cons] at old ⊢
    exact ⟨old.1, fits _ room, old.2⟩
  | ignored unknown room =>
    simp only [List.forall_mem_append, List.forall_mem_cons] at old ⊢
    exact ⟨old.1, fits _ room, old.2.2⟩
  | spelled member default absent =>
    simp only [List.forall_mem_append, List.forall_mem_cons] at old ⊢
    exact ⟨old.1, (strict _ member).2 _ default, old.2⟩
  | inside member kept =>
    simp only [List.forall_mem_append, List.forall_mem_cons] at old ⊢
    exact ⟨old.1, kept.legible (strict _ member).1 old.2.1, old.2.2⟩

theorem Reshaped.legible (reshaped : Reshaped fields fit j j') (strict : ∀ field ∈ fields, field.Strict)
    (fits : ∀ v, fit v → v.legible = true) (legible : j.legible = true) : j'.legible = true := by
  cases reshaped with
  | members changed => exact membersLegibleIff.mpr (changed.legible strict fits (membersLegibleIff.mp legible))
  | appended next default =>
    have old := itemsLegibleIff.mp legible
    refine itemsLegibleIff.mpr ?_
    simp only [List.forall_mem_append, List.forall_mem_singleton]
    exact ⟨old, (strict _ (List.mem_of_getElem? next)).2 _ default⟩
  | placed place kept =>
    have old := itemsLegibleIff.mp legible
    refine itemsLegibleIff.mpr ?_
    simp only [List.forall_mem_append, List.forall_mem_cons] at old ⊢
    exact ⟨old.1, kept.legible (strict _ (List.mem_of_getElem? place)).1 old.2.1, old.2.2⟩

end Legibility

section Edits

variable {fields : List Field} {fit : Json → Prop} {j j' : Json}

theorem Form.Kept.refl (form : Form) (j : Json) : form.Kept j j := by
  cases form with
  | plain | comparison | actions => exact rfl
  | predicate => exact ⟨id, fun _ _ => id⟩
  | script => exact ⟨id, fun _ _ => id, fun _ => id⟩
  | code => exact ⟨id, fun _ => id⟩
  | handler | method | model => exact fun _ => id
  | list item => exact .inl rfl

theorem tagNameKnown {inside : Bool} {names : List String} {tag : Json} {name : String}
    (h : Json.tagName? inside names tag = some name) :
    name ∈ names ∧ Json.tagName? true names tag = some name := by
  cases tag with
  | str s =>
    obtain ⟨member, same⟩ := Option.ite_none_right_eq_some.mp h
    cases same
    exact ⟨member, h⟩
  | int n =>
    obtain ⟨⟨_, positive⟩, found⟩ := Option.ite_none_right_eq_some.mp h
    exact ⟨List.mem_of_getElem? found, Option.ite_none_right_eq_some.mpr ⟨⟨rfl, positive⟩, found⟩⟩
  | _ => cases h

structure Table (tag : String) (fields : List Field) : Prop where
  distinct : (tag :: fields.map (·.name)).Nodup
  strict : ∀ field ∈ .plain tag :: fields, field.Strict

theorem predicateTable (kind : String) : Table "kind" (predicateFields kind) := by
  unfold predicateFields
  split
  all_goals exact ⟨by decide, by simp [Field.Strict, Field.plain, Field.items, Form.strict]⟩

theorem scriptTable (kind : String) : Table "kind" (scriptFields kind) := by
  unfold scriptFields
  split
  all_goals
    exact ⟨by decide, by simp [Field.Strict, Field.plain, Field.items, Form.strict, Json.legible, Json.itemsLegible]⟩

theorem codeTable (mnemonic : String) : Table "op" (codeFields mnemonic) := by
  unfold codeFields
  split
  all_goals exact ⟨by decide, by simp [Field.Strict, Field.plain, Form.strict]⟩

theorem Reshaped.fixed (reshaped : Reshaped fields fit j j') (full : ∀ v, ¬ fit v)
    (plain : ∀ field ∈ fields, field = .plain field.name) : j = j' := by
  have unspelled : ∀ field ∈ fields, ∀ v, field.default ≠ some v := by
    intro field member v default
    rw [plain field member] at default
    cases default
  have still : ∀ field ∈ fields, ∀ v v', field.form.Kept v v' → v = v' := by
    intro field member v v' kept
    rw [plain field member] at kept
    exact kept
  cases reshaped with
  | members changed =>
    cases changed with
    | added _ room => exact absurd room (full _)
    | ignored _ room => exact absurd room (full _)
    | spelled member default => exact absurd default (unspelled _ member _)
    | inside member kept => rw [still _ member _ _ kept]
  | appended next default => exact absurd default (unspelled _ (List.mem_of_getElem? next) _)
  | placed place kept => rw [still _ (List.mem_of_getElem? place) _ _ kept]

theorem Reshaped.readKind {α : Type} {tag : String} {names : List String} {part : String → Json → Option α}
    (reshaped : Reshaped (.plain tag :: fields) fit j j') (table : Table tag fields) {name body : Json} {kind : String}
    (tagged : j.tagged? tag = some (name, body)) (named : Json.tagName? true names name = some kind)
    (rests : RestsOn fields (part kind)) (inside : Bool) :
    Keeps (fun j => (j.tagged? tag).bind fun parts =>
      (Json.tagName? inside names parts.1).bind fun kind => part kind parts.2) j j' := by
  intro x found
  obtain ⟨⟨_, _⟩, tagged', found⟩ := Option.bind_eq_some_iff.mp found
  cases tagged.symm.trans tagged'
  obtain ⟨kind', named', found⟩ := Option.bind_eq_some_iff.mp found
  cases named.symm.trans (tagNameKnown named').2
  obtain ⟨body', again, read⟩ := reshaped.readTagged table.distinct rests tagged found
  exact Option.bind_eq_some_iff.mpr ⟨(name, body'), again, Option.bind_eq_some_iff.mpr ⟨kind, named', read⟩⟩

theorem predicateKept (known : Form.predicate.fields j = some fields)
    (reshaped : Reshaped fields (Roomy .predicate) j j') : Form.predicate.Kept j j' := by
  obtain ⟨⟨tag, body⟩, tagged, known⟩ := Option.bind_eq_some_iff.mp known
  obtain ⟨kind, named, rfl⟩ := Option.map_eq_some_iff.mp known
  have table := predicateTable kind
  have rests := predicateRests (tagNameKnown named).1
  refine ⟨reshaped.legible table.strict fun _ fit => fit, fun inside p found => ?_⟩
  rw [Predicate.valueEq] at found ⊢
  exact reshaped.readKind table tagged named rests inside p found

theorem Reshaped.events (reshaped : Reshaped fields fit j j') :
    Model.eventsOfJson? j = (Script.ofJson? j).map some ∧ Model.eventsOfJson? j' = (Script.ofJson? j').map some := by
  cases reshaped with
  | members => exact ⟨rfl, rfl⟩
  | appended => exact ⟨rfl, rfl⟩
  | placed => exact ⟨rfl, rfl⟩

theorem scriptKept (known : Form.script.fields j = some fields)
    (reshaped : Reshaped fields (Roomy .script) j j') : Form.script.Kept j j' := by
  obtain ⟨⟨tag, body⟩, tagged, known⟩ := Option.bind_eq_some_iff.mp known
  obtain ⟨kind, named, rfl⟩ := Option.map_eq_some_iff.mp known
  have table := scriptTable kind
  have rests := scriptRests (tagNameKnown named).1
  have legible := reshaped.legible table.strict fun _ fit => fit
  have reads : ∀ inside, Keeps (Script.value? inside) j j' := by
    intro inside s found
    rw [Script.valueEq] at found ⊢
    exact reshaped.readKind table tagged named rests inside s found
  refine ⟨legible, reads, fun events found => ?_⟩
  rw [reshaped.events.1] at found
  rw [reshaped.events.2]
  obtain ⟨s, read, last⟩ := Option.map_eq_some_iff.mp found
  obtain ⟨old, value⟩ := Option.ite_none_right_eq_some.mp read
  have again : Script.ofJson? j' = some s := Option.ite_none_right_eq_some.mpr ⟨legible old, reads false s value⟩
  exact Option.map_eq_some_iff.mpr ⟨s, again, last⟩

theorem codeKept (known : Form.code.fields j = some fields)
    (reshaped : Reshaped fields (Roomy .code) j j') : Form.code.Kept j j' := by
  obtain ⟨⟨tag, body⟩, tagged, known⟩ := Option.bind_eq_some_iff.mp known
  obtain ⟨mnemonic, named, rfl⟩ := Option.map_eq_some_iff.mp known
  have table := codeTable mnemonic
  refine ⟨reshaped.legible table.strict fun _ fit => fit, fun c found => ?_⟩
  obtain ⟨⟨_, _⟩, tagged', found⟩ := Option.bind_eq_some_iff.mp found
  cases tagged.symm.trans tagged'
  obtain ⟨_, named', found⟩ := Option.bind_eq_some_iff.mp found
  cases named.symm.trans named'
  obtain ⟨body', again, read⟩ := reshaped.readTagged table.distinct (mnemonicRests mnemonic) tagged found
  exact Option.bind_eq_some_iff.mpr ⟨(tag, body'), again, Option.bind_eq_some_iff.mpr ⟨mnemonic, named, read⟩⟩

theorem reshapedKept {form : Form} (known : form.fields j = some fields) (reshaped : Reshaped fields (Roomy form) j j') :
    form.Kept j j' := by
  cases form with
  | plain | actions | list => cases known
  | comparison =>
    cases known
    exact reshaped.fixed (fun _ room => room) (by simp [Field.plain])
  | predicate => exact predicateKept known reshaped
  | script => exact scriptKept known reshaped
  | code => exact codeKept known reshaped
  | handler =>
    cases known
    exact reshaped.read (by decide) handlerRests
  | method =>
    cases known
    exact reshaped.read (by decide) methodRests
  | model =>
    cases known
    exact reshaped.read (by decide) modelRests

theorem Edit.kept {form : Form} (edit : Edit Roomy form j j') : form.Kept j j' := by
  induction edit with
  | added known unknown fit => exact reshapedKept known (.members (.added unknown fit))
  | ignored known unknown fit => exact reshapedKept known (.members (.ignored unknown fit))
  | spelled known member default absent => exact reshapedKept known (.members (.spelled member default absent))
  | appended known next default => exact reshapedKept known (.appended next default)
  | inside known member _ ih => exact reshapedKept known (.members (.inside member ih))
  | placed known place _ ih => exact reshapedKept known (.placed place ih)
  | @item form _ _ _ _ _ ih =>
    have same : ∀ items : List Json, List.Forall₂ form.Kept items items := fun items =>
      List.forall₂_same.mpr fun v _ => Form.Kept.refl form v
    exact .inr ⟨_, _, rfl, rfl, List.rel_append (same _) (.cons ih (same _))⟩

theorem editsKept (edits : Relation.ReflTransGen (Edit Roomy .model) j j') : Keeps Model.ofJson? j j' := by
  intro m read
  induction edits with
  | refl => exact read
  | tail _ edit ih => exact edit.kept m ih

end Edits

end Written

namespace Model
open Written

theorem formatRoundTrips : (∀ m : Model, ofJson? m.toJson = some m) ∧
    ∀ j m, ofJson? j = some m → ofJson? m.toJson = some m ∧
      ∀ j', Relation.ReflTransGen (Edit Roomy .model) j j' → ofJson? j' = some m :=
  ⟨readWritten, fun _ m read => ⟨m.readWritten, fun _ edits => editsKept edits m read⟩⟩

def methodText (instruction handler : List (String × Json)) : Json :=
  .obj [("signature", .str "A.m()V"), ("code", .arr [.obj (("op", .str "return") :: instruction)]),
    ("handlers", .arr [.obj ([("start", .int 0), ("end", .int 1), ("handler", .int 0)] ++ handler)])]

def eventText (method : Json) (args : List Json) : Json :=
  .obj [("name", .str "m"), ("entry", .str "A.m()V"), ("methods", .arr [method]),
    ("events", .arr ([.str "event", .str "tick"] ++ args))]

theorem eventTextRead : ∃ j j' m, ofJson? j = some m ∧ j' = eventText
      (methodText [("line", .int 7)] [("class", .str "*")]) [.arr []] ∧
    Relation.ReflTransGen (Edit Roomy .model) j j' ∧ ofJson? m.toJson = some m ∧ ofJson? j' = some m := by
  have inMethod : ∀ {v v'}, Edit Roomy .method v v' → Edit Roomy .model (eventText v []) (eventText v' []) := by
    intro v v' edit
    exact @Edit.inside Roomy .model modelFields [("name", .str "m"), ("entry", .str "A.m()V")]
      [("events", .arr [.str "event", .str "tick"])] ⟨"methods", .list .method, none⟩ _ _ rfl
      (by simp [modelFields]) (@Edit.item Roomy .method [] [] _ _ edit)
  have spelled : Edit Roomy .method (methodText [] []) (methodText [] [("class", .str "*")]) :=
    @Edit.inside Roomy .method methodFields
      [("signature", .str "A.m()V"), ("code", .arr [.obj [("op", .str "return")]])] []
      ⟨"handlers", .list .handler, some (.arr [])⟩ _ _ rfl (by simp [methodFields])
      (@Edit.item Roomy .handler [] [] _ _ (@Edit.spelled Roomy .handler handlerFields
        [("start", .int 0), ("end", .int 1), ("handler", .int 0)] [] ⟨"class", .plain, some (.str "*")⟩ _ rfl
        (by simp [handlerFields]) rfl (by simp)))
  have added : Edit Roomy .method (methodText [] [("class", .str "*")])
      (methodText [("line", .int 7)] [("class", .str "*")]) :=
    @Edit.inside Roomy .method methodFields [("signature", .str "A.m()V")] [("handlers", _)]
      ⟨"code", .list .code, some (.arr [])⟩ _ _ rfl (by simp [methodFields])
      (@Edit.item Roomy .code [] [] _ _ (@Edit.added Roomy .code [.plain "op"] [("op", .str "return")] [] "line"
        (.int 7) rfl (by simp [Field.plain]) rfl))
  have appended : Edit Roomy .model (eventText (methodText [("line", .int 7)] [("class", .str "*")]) [])
      (eventText (methodText [("line", .int 7)] [("class", .str "*")]) [.arr []]) :=
    @Edit.inside Roomy .model modelFields [("name", .str "m"), ("entry", .str "A.m()V"), ("methods", _)] []
      ⟨"events", .script, some .null⟩ _ _ rfl (by simp [modelFields])
      (@Edit.appended Roomy .script (.plain "kind" :: scriptFields "event") [.str "event", .str "tick"]
        ⟨"args", .plain, some (.arr [])⟩ _ rfl rfl rfl)
  have edits := ((Relation.ReflTransGen.single (inMethod spelled)).tail (inMethod added)).tail appended
  have readable : (ofJson? (eventText (methodText [] []) [])).isSome = true := by decide +kernel
  obtain ⟨m, read⟩ := Option.isSome_iff_exists.mp readable
  have kept := formatRoundTrips.2 _ m read
  exact ⟨_, _, m, read, rfl, edits, kept.1, kept.2 _ edits⟩

def checkText (comparison : Json) : Json :=
  .obj [("name", .str "m"), ("entry", .str "A.m()V"), ("methods", .arr []),
    ("events", .obj [("kind", .str "check"), ("name", .str "c"), ("predicate",
      .obj [("kind", .str "compare"), ("field", .str "A.x"), ("op", comparison), ("value", .int 1)])])]

def codeText (instruction : List (String × Json)) : Json :=
  .obj [("name", .str "m"), ("entry", .str "A.m()V"), ("methods", .arr [methodText instruction []])]

/- A comparison that is written as an object has no room for another member, and an instruction has none for what can
not be read. -/
theorem widenedUnread :
    (∃ j j' m, Edit (fun _ value => value.legible = true) .model j j' ∧ ofJson? j = some m ∧ ofJson? j' = none) ∧
    ∃ j j' m, Edit (fun form _ => form = .code) .model j j' ∧ ofJson? j = some m ∧ ofJson? j' = none := by
  have comparison : Edit (fun _ value => value.legible = true) .model (checkText (.obj [("eq", .null)]))
      (checkText (.obj [("eq", .null), ("note", .int 1)])) :=
    @Edit.inside _ .model modelFields [("name", .str "m"), ("entry", .str "A.m()V"), ("methods", .arr [])] []
      ⟨"events", .script, some .null⟩ _ _ rfl (by simp [modelFields])
      (@Edit.inside _ .script (.plain "kind" :: scriptFields "check") [("kind", .str "check"), ("name", .str "c")] []
        ⟨"predicate", .predicate, none⟩ _ _ rfl (by simp [scriptFields])
        (@Edit.inside _ .predicate (.plain "kind" :: predicateFields "compare")
          [("kind", .str "compare"), ("field", .str "A.x")] [("value", .int 1)] ⟨"op", .comparison, none⟩ _ _ rfl
          (by simp [predicateFields])
          (@Edit.added _ .comparison _ [("eq", .null)] [] "note" (.int 1) rfl (by decide) rfl)))
  have instruction : Edit (fun form _ => form = .code) .model (codeText []) (codeText [("note", .garbled)]) :=
    @Edit.inside _ .model modelFields [("name", .str "m"), ("entry", .str "A.m()V")] []
      ⟨"methods", .list .method, none⟩ _ _ rfl (by simp [modelFields])
      (@Edit.item _ .method [] [] _ _
        (@Edit.inside _ .method methodFields [("signature", .str "A.m()V")] [("handlers", _)]
          ⟨"code", .list .code, some (.arr [])⟩ _ _ rfl (by simp [methodFields])
          (@Edit.item _ .code [] [] _ _ (@Edit.added _ .code [.plain "op"] [("op", .str "return")] [] "note"
            .garbled rfl (by simp [Field.plain]) rfl))))
  have first : (ofJson? (checkText (.obj [("eq", .null)]))).isSome = true := by decide +kernel
  have second : (ofJson? (codeText [])).isSome = true := by decide +kernel
  have third : (ofJson? (checkText (.obj [("eq", .null), ("note", .int 1)]))).isNone = true := by decide +kernel
  have fourth : (ofJson? (codeText [("note", .garbled)])).isNone = true := by decide +kernel
  obtain ⟨checked, readChecked⟩ := Option.isSome_iff_exists.mp first
  obtain ⟨coded, readCoded⟩ := Option.isSome_iff_exists.mp second
  exact ⟨⟨_, _, checked, comparison, readChecked, Option.isNone_iff_eq_none.mp third⟩,
    _, _, coded, instruction, readCoded, Option.isNone_iff_eq_none.mp fourth⟩

end Model

end BytecodeChecker
