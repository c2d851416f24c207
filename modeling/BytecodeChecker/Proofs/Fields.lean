import Mathlib.Data.List.Forall2
import Mathlib.Data.List.Nodup
import BytecodeChecker.Proofs.RoundTrip

/-! The fields of what is written for a model, and what a change of a written record is for each of them. A member that
is no field may be put in or changed, and a field that takes a default may be spelled out, in every object and in every
array that stands for one. -/
namespace BytecodeChecker

namespace Written

inductive Form where
  | plain
  | comparison
  | predicate
  | script
  | code
  | handler
  | method
  | model
  | actions
  | list (item : Form)

structure Field where
  name : String
  form : Form
  default : Option Json

namespace Field

def plain (name : String) : Field := ⟨name, .plain, none⟩

def items (form : Form) : Field := ⟨"items", .list form, none⟩

end Field

def predicateFields : String → List Field
  | "compare" => [.plain "field", ⟨"op", .comparison, none⟩, .plain "value"]
  | "not" => [⟨"inner", .predicate, none⟩]
  | _ => [.items .predicate]

def scriptFields : String → List Field
  | "event" => [.plain "name", ⟨"args", .plain, some (.arr [])⟩]
  | "check" => [.plain "name", ⟨"predicate", .predicate, none⟩]
  | "none" => []
  | _ => [.items .script]

def codeFields : String → List Field
  | "ldc" | "ldc2_w" => [.plain "value"]
  | "lload" | "aload" | "lstore" | "astore" => [.plain "slot"]
  | "ifeq" | "ifne" | "iflt" | "ifge" | "ifgt" | "ifle" | "ifnull" | "ifnonnull" | "goto" => [.plain "target"]
  | "getstatic" | "putstatic" | "getfield" | "putfield" => [.plain "field"]
  | "invokestatic" => [.plain "method"]
  | "new" => [.plain "class"]
  | _ => []

def handlerFields : List Field :=
  [.plain "start", .plain "end", .plain "handler", ⟨"class", .plain, some (.str "*")⟩]

def methodFields : List Field :=
  [.plain "signature", ⟨"native", .plain, some (.bool false)⟩, ⟨"max_locals", .plain, some (.int 0)⟩,
    ⟨"code", .list .code, some (.arr [])⟩, ⟨"handlers", .list .handler, some (.arr [])⟩]

def modelFields : List Field :=
  [.plain "name", .plain "entry", ⟨"threads", .plain, some (.arr [])⟩, ⟨"methods", .list .method, none⟩,
    ⟨"events", .script, some .null⟩, ⟨"actions", .actions, some (.obj [])⟩]

def Form.fields : Form → Json → Option (List Field)
  | .comparison, _ => some (["eq", "ne", "lt", "le", "gt", "ge"].map .plain)
  | .predicate, j => (j.tagged? "kind").bind fun (tag, _) =>
      (Json.tagName? true Predicate.kinds tag).map fun kind => .plain "kind" :: predicateFields kind
  | .script, j => (j.tagged? "kind").bind fun (tag, _) =>
      (Json.tagName? true Script.kinds tag).map fun kind => .plain "kind" :: scriptFields kind
  | .code, j => (j.tagged? "op").bind fun (tag, _) => tag.str?.map fun op => .plain "op" :: codeFields op
  | .handler, _ => some handlerFields
  | .method, _ => some methodFields
  | .model, _ => some modelFields
  | .plain, _ | .actions, _ | .list _, _ => none

inductive Edit (admits : Form → Json → Prop) : Form → Json → Json → Prop where
  | added {form fields before after name value} (known : form.fields (.obj (before ++ after)) = some fields)
      (unknown : name ∉ fields.map (·.name)) (fit : admits form value) :
      Edit admits form (.obj (before ++ after)) (.obj (before ++ (name, value) :: after))
  | ignored {form fields before after name value value'}
      (known : form.fields (.obj (before ++ (name, value) :: after)) = some fields)
      (unknown : name ∉ fields.map (·.name)) (fit : admits form value') :
      Edit admits form (.obj (before ++ (name, value) :: after)) (.obj (before ++ (name, value') :: after))
  | spelled {form fields before after field value} (known : form.fields (.obj (before ++ after)) = some fields)
      (member : field ∈ fields) (default : field.default = some value)
      (absent : field.name ∉ (before ++ after).map (·.1)) :
      Edit admits form (.obj (before ++ after)) (.obj (before ++ (field.name, value) :: after))
  | appended {form fields items field value} (known : form.fields (.arr items) = some fields)
      (next : fields[items.length]? = some field) (default : field.default = some value) :
      Edit admits form (.arr items) (.arr (items ++ [value]))
  | inside {form fields before after field value value'}
      (known : form.fields (.obj (before ++ (field.name, value) :: after)) = some fields) (member : field ∈ fields)
      (edit : Edit admits field.form value value') :
      Edit admits form (.obj (before ++ (field.name, value) :: after)) (.obj (before ++ (field.name, value') :: after))
  | placed {form fields before after field value value'}
      (known : form.fields (.arr (before ++ value :: after)) = some fields)
      (place : fields[before.length]? = some field) (edit : Edit admits field.form value value') :
      Edit admits form (.arr (before ++ value :: after)) (.arr (before ++ value' :: after))
  | item {form before after value value'} (edit : Edit admits form value value') :
      Edit admits (.list form) (.arr (before ++ value :: after)) (.arr (before ++ value' :: after))

/- Models, methods and handlers have room for anything; instructions, scripts and predicates for what can be read;
comparisons for nothing. -/
def Roomy : Form → Json → Prop
  | .model, _ | .method, _ | .handler, _ => True
  | .code, value | .script, value | .predicate, value => value.legible = true
  | _, _ => False

def Keeps {α : Type} (read : Json → Option α) (j j' : Json) : Prop := ∀ x, read j = some x → read j' = some x

def Form.Kept : Form → Json → Json → Prop
  | .plain, j, j' | .comparison, j, j' | .actions, j, j' => j = j'
  | .predicate, j, j' => (j.legible = true → j'.legible = true) ∧ ∀ inside, Keeps (Predicate.value? inside) j j'
  | .script, j, j' => (j.legible = true → j'.legible = true) ∧ (∀ inside, Keeps (Script.value? inside) j j') ∧
      Keeps Model.eventsOfJson? j j'
  | .code, j, j' => (j.legible = true → j'.legible = true) ∧ Keeps Model.Code.read? j j'
  | .handler, j, j' => Keeps Model.handlerOfJson? j j'
  | .method, j, j' => Keeps Model.Method.ofJson? j j'
  | .model, j, j' => Keeps Model.ofJson? j j'
  | .list item, j, j' => j = j' ∨
      ∃ items items', j = .arr items ∧ j' = .arr items' ∧ List.Forall₂ item.Kept items items'

inductive Field.Kept (field : Field) : Option Json → Option Json → Prop where
  | same {held} : field.Kept held held
  | spelled {value} (default : field.default = some value) : field.Kept none (some value)
  | inside {value value'} (kept : field.form.Kept value value') : field.Kept (some value) (some value')

inductive Changed (fields : List Field) (fit : Json → Prop) : List (String × Json) → List (String × Json) → Prop where
  | added {before after name value} (unknown : name ∉ fields.map (·.name)) (room : fit value) :
      Changed fields fit (before ++ after) (before ++ (name, value) :: after)
  | ignored {before after name value value'} (unknown : name ∉ fields.map (·.name)) (room : fit value') :
      Changed fields fit (before ++ (name, value) :: after) (before ++ (name, value') :: after)
  | spelled {before after field value} (member : field ∈ fields) (default : field.default = some value)
      (absent : field.name ∉ (before ++ after).map (·.1)) :
      Changed fields fit (before ++ after) (before ++ (field.name, value) :: after)
  | inside {before after field value value'} (member : field ∈ fields) (kept : field.form.Kept value value') :
      Changed fields fit (before ++ (field.name, value) :: after) (before ++ (field.name, value') :: after)

inductive Reshaped (fields : List Field) (fit : Json → Prop) : Json → Json → Prop where
  | members {members members'} (changed : Changed fields fit members members') :
      Reshaped fields fit (.obj members) (.obj members')
  | appended {items field value} (next : fields[items.length]? = some field) (default : field.default = some value) :
      Reshaped fields fit (.arr items) (.arr (items ++ [value]))
  | placed {before after field value value'} (place : fields[before.length]? = some field)
      (kept : field.form.Kept value value') :
      Reshaped fields fit (.arr (before ++ value :: after)) (.arr (before ++ value' :: after))

theorem memberAppend (name : String) (left right : List (String × Json)) :
    Json.member? name (left ++ right) = (Json.member? name left).or (Json.member? name right) := by
  induction left with
  | nil => rfl
  | cons m rest ih =>
    simp only [List.cons_append, Json.member?]
    split
    · rfl
    · exact ih

theorem memberNone {name : String} {members : List (String × Json)} (absent : name ∉ members.map (·.1)) :
    Json.member? name members = none := by
  cases found : Json.member? name members with
  | none => rfl
  | some v => exact absurd (List.mem_map_of_mem (Json.memberFound found)) absent

def Once (names : List String) (members : List (String × Json)) : Prop :=
  ((members.map (·.1)).filter (names.contains ·)).Nodup

section Once

variable {names : List String} {before after : List (String × Json)} {name : String} {value : Json}

theorem onceKnown (known : name ∈ names) : Once names (before ++ (name, value) :: after) ↔
    Once names (before ++ after) ∧ name ∉ (before ++ after).map (·.1) := by
  have kept : names.contains name = true := by simpa using known
  unfold Once
  rw [List.map_append, List.map_cons, List.filter_append, List.filter_cons_of_pos kept, List.nodup_middle,
    List.nodup_cons, ← List.filter_append, ← List.map_append, List.mem_filter]
  simp only [kept, and_true]
  exact and_comm

theorem onceUnknown (unknown : name ∉ names) :
    Once names (before ++ (name, value) :: after) ↔ Once names (before ++ after) := by
  have dropped : ¬ names.contains name = true := by simpa using unknown
  unfold Once
  rw [List.map_append, List.map_cons, List.filter_append, List.filter_cons_of_neg dropped, ← List.filter_append,
    ← List.map_append]

theorem onceAbsent {members : List (String × Json)} (absent : name ∉ members.map (·.1)) :
    Once (name :: names) members ↔ Once names members := by
  have same : (members.map (·.1)).filter ((name :: names).contains ·) = (members.map (·.1)).filter (names.contains ·) := by
    apply List.filter_congr
    intro other there
    have apart : other ≠ name := fun same => absent (same ▸ there)
    simp [apart]
  unfold Once
  rw [same]

theorem onceZip (distinct : names.Nodup) (items : List Json) : Once names (names.zip items) := by
  have front : ((names.zip items).map (·.1)).Nodup := by
    induction names generalizing items with
    | nil => exact List.nodup_nil
    | cons name rest ih =>
      cases items with
      | nil => exact List.nodup_nil
      | cons v items =>
        obtain ⟨apart, distinct⟩ := List.nodup_cons.mp distinct
        refine List.nodup_cons.mpr ⟨fun there => ?_, ih distinct items⟩
        obtain ⟨m, member, rfl⟩ := List.mem_map.mp there
        exact apart (List.of_mem_zip member).1
  exact front.filter _

end Once

section Members

variable {fields : List Field} {fit : Json → Prop} {members members' : List (String × Json)}

theorem Changed.once (changed : Changed fields fit members members') (once : Once (fields.map (·.name)) members) :
    Once (fields.map (·.name)) members' := by
  cases changed with
  | added unknown => exact (onceUnknown unknown).mpr once
  | ignored unknown => exact (onceUnknown unknown).mpr ((onceUnknown unknown).mp once)
  | spelled member _ absent => exact (onceKnown (List.mem_map_of_mem member)).mpr ⟨once, absent⟩
  | @inside _ _ field _ _ member =>
    have known : field.name ∈ fields.map (·.name) := List.mem_map_of_mem member
    exact (onceKnown known).mpr ((onceKnown known).mp once)

theorem memberOther {before after : List (String × Json)} {name other : String} {value : Json} (apart : other ≠ name) :
    Json.member? name (before ++ (other, value) :: after) = Json.member? name (before ++ after) := by
  rw [memberAppend, memberAppend, Json.member?, if_neg apart]

theorem memberHere {before after : List (String × Json)} {name : String} {value : Json}
    (absent : name ∉ (before ++ after).map (·.1)) :
    Json.member? name (before ++ (name, value) :: after) = some value := by
  have first : name ∉ before.map (·.1) := fun member => absent (by simp_all)
  rw [memberAppend, memberNone first, Option.none_or, Json.member?, if_pos rfl]

theorem Changed.kept (changed : Changed fields fit members members') (distinct : (fields.map (·.name)).Nodup)
    (once : Once (fields.map (·.name)) members) {field : Field} (member : field ∈ fields) :
    field.Kept (Json.member? field.name members) (Json.member? field.name members') := by
  have named : field.name ∈ fields.map (·.name) := List.mem_map_of_mem member
  have apart : ∀ {name}, name ∉ fields.map (·.name) → name ≠ field.name := by
    intro name unknown same
    exact unknown (same ▸ named)
  cases changed with
  | added unknown =>
    rw [memberOther (apart unknown)]
    exact .same
  | ignored unknown =>
    rw [memberOther (apart unknown), memberOther (apart unknown)]
    exact .same
  | @spelled _ _ other _ there default absent =>
    by_cases same : other.name = field.name
    · cases List.inj_on_of_nodup_map distinct there member same
      rw [memberNone absent, memberHere absent]
      exact .spelled default
    · rw [memberOther same]
      exact .same
  | @inside _ _ other _ _ there kept =>
    by_cases same : other.name = field.name
    · cases List.inj_on_of_nodup_map distinct there member same
      have absent := ((onceKnown named).mp once).2
      rw [memberHere absent, memberHere absent]
      exact .inside kept
    · rw [memberOther same, memberOther same]
      exact .same

end Members

theorem recordObj {names : List String} {members view : List (String × Json)} :
    Json.record? names (.obj members) = some view ↔ Once names members ∧ view = members := by
  simp only [Json.record?]
  split
  · rename_i once
    exact ⟨fun h => ⟨once, (Option.some.inj h).symm⟩, fun h => congrArg some h.2.symm⟩
  · rename_i twice
    exact ⟨fun h => (by cases h), fun h => absurd h.1 twice⟩

theorem recordArr {names : List String} {items : List Json} {view : List (String × Json)} :
    Json.record? names (.arr items) = some view ↔ items.length ≤ names.length ∧ view = names.zip items := by
  by_cases short : items.length ≤ names.length
  · simp [Json.record?, short, eq_comm]
  · simp [Json.record?, short]

theorem splitAt {α : Type} {xs : List α} {n : Nat} {x : α} (found : xs[n]? = some x) :
    ∃ front back, xs = front ++ x :: back ∧ front.length = n := by
  obtain ⟨inside, rfl⟩ := List.getElem?_eq_some_iff.mp found
  refine ⟨xs.take n, xs.drop (n + 1), ?_, List.length_take_of_le (Nat.le_of_lt inside)⟩
  rw [← List.drop_eq_getElem_cons inside, List.take_append_drop]

section Records

variable {fields : List Field} {fit : Json → Prop} {j j' : Json}

theorem Reshaped.record (reshaped : Reshaped fields fit j j') (distinct : (fields.map (·.name)).Nodup)
    {view : List (String × Json)} (read : j.record? (fields.map (·.name)) = some view) :
    ∃ view', j'.record? (fields.map (·.name)) = some view' ∧
      ∀ field ∈ fields, field.Kept (Json.member? field.name view) (Json.member? field.name view') := by
  cases reshaped with
  | members changed =>
    obtain ⟨once, rfl⟩ := recordObj.mp read
    exact ⟨_, recordObj.mpr ⟨changed.once once, rfl⟩, fun field member => changed.kept distinct once member⟩
  | @appended items field value next default =>
    obtain ⟨_, rfl⟩ := recordArr.mp read
    obtain ⟨front, back, rfl, length⟩ := splitAt next
    refine ⟨_, recordArr.mpr ⟨by simp; omega, rfl⟩, fun other member => ?_⟩
    have once := onceZip distinct items
    have zipped : ∀ more, ((front ++ field :: back).map Field.name).zip (items ++ more) =
        (front.map Field.name).zip items ++ ((field :: back).map Field.name).zip more := by
      intro more
      rw [List.map_append, List.zip_append (by simpa using length)]
    have old := zipped []
    rw [List.append_nil, List.zip_nil_right] at old
    have absent : field.name ∉ ((front.map Field.name).zip items ++ []).map Prod.fst := by
      rw [List.append_nil, List.map_fst_zip (by simp [length])]
      rw [List.map_append, List.map_cons, List.nodup_middle, List.nodup_cons] at distinct
      exact fun there => distinct.1 (List.mem_append_left _ there)
    have changed : Changed (front ++ field :: back) fit ((front.map Field.name).zip items ++ [])
        ((front.map Field.name).zip items ++ [(field.name, value)]) :=
      .spelled (List.mem_append_right _ List.mem_cons_self) default absent
    rw [old] at once ⊢
    rw [zipped [value], List.map_cons, List.zip_cons_cons, List.zip_nil_right]
    exact changed.kept distinct once member
  | @placed before after field value value' place kept =>
    obtain ⟨short, rfl⟩ := recordArr.mp read
    obtain ⟨front, back, rfl, length⟩ := splitAt place
    refine ⟨_, recordArr.mpr ⟨by simpa using short, rfl⟩, fun other member => ?_⟩
    have once := onceZip distinct (before ++ value :: after)
    have zipped : ∀ v, ((front ++ field :: back).map Field.name).zip (before ++ v :: after) =
        (front.map Field.name).zip before ++ (field.name, v) :: (back.map Field.name).zip after := by
      intro v
      rw [List.map_append, List.map_cons, List.zip_append (by simpa using length), List.zip_cons_cons]
    have changed : Changed (front ++ field :: back) fit
        ((front.map Field.name).zip before ++ (field.name, value) :: (back.map Field.name).zip after)
        ((front.map Field.name).zip before ++ (field.name, value') :: (back.map Field.name).zip after) :=
      .inside (List.mem_append_right _ List.mem_cons_self) kept
    rw [zipped] at once ⊢
    rw [zipped]
    exact changed.kept distinct once member

end Records

section Tags

variable {tag : String} {names : List String} {j kind body : Json} {view : List (String × Json)}

theorem memberSplit {name : String} {value : Json} {members : List (String × Json)}
    (found : Json.member? name members = some value) :
    ∃ before after, members = before ++ (name, value) :: after ∧ name ∉ before.map (·.1) := by
  induction members with
  | nil => cases found
  | cons m rest ih =>
    simp only [Json.member?] at found
    split at found
    · rename_i same
      cases found
      cases same
      exact ⟨[], rest, rfl, by simp⟩
    · rename_i apart
      obtain ⟨before, after, rfl, absent⟩ := ih found
      refine ⟨m :: before, after, rfl, fun there => ?_⟩
      rcases List.mem_cons.mp there with same | later
      · exact apart same.symm
      · exact absent later

theorem tagSplit {before after : List (String × Json)} (absent : tag ∉ (before ++ after).map (·.1)) :
    Json.tagged? tag (.obj (before ++ (tag, kind) :: after)) = some (kind, .obj (before ++ after)) := by
  have others : ∀ m ∈ before ++ after, m.1 ≠ tag := fun m member same =>
    absent (same ▸ List.mem_map_of_mem member)
  have none : (before ++ after).filter (·.1 == tag) = [] :=
    List.filter_eq_nil_iff.mpr fun m member => by simpa using others m member
  have all : (before ++ after).filter (·.1 != tag) = before ++ after :=
    List.filter_eq_self.mpr fun m member => by simpa using others m member
  rw [List.filter_append, List.append_eq_nil_iff] at none
  rw [List.filter_append] at all
  simp [Json.tagged?, List.filter_append, none, all]

theorem splitTag {members : List (String × Json)} (tagged : Json.tagged? tag (.obj members) = some (kind, body)) :
    ∃ before after, members = before ++ (tag, kind) :: after ∧ body = .obj (before ++ after) ∧
      tag ∉ (before ++ after).map (·.1) := by
  have parts := tagged
  simp only [Json.tagged?] at parts
  split at parts
  · rename_i name _ single
    cases parts
    obtain ⟨before, after, rfl, first, here, last⟩ := List.filter_eq_cons_iff.mp single
    have same : name = tag := by simpa using here
    subst same
    have absent : ∀ m ∈ before ++ after, m.1 ≠ name := by
      intro m member
      rcases List.mem_append.mp member with left | right
      · simpa using first m left
      · simpa using List.filter_eq_nil_iff.mp last m right
    have missing : name ∉ (before ++ after).map (·.1) := by
      intro there
      obtain ⟨m, member, same⟩ := List.mem_map.mp there
      exact absent m member same
    have whole := Option.some.inj ((tagSplit missing).symm.trans tagged)
    exact ⟨before, after, rfl, (Prod.mk.inj whole).2.symm, missing⟩
  · cases parts

theorem taggedRecord (apart : tag ∉ names) (tagged : j.tagged? tag = some (kind, body))
    (read : body.record? names = some view) : ∃ all, j.record? (tag :: names) = some all ∧
      Json.member? tag all = some kind ∧ ∀ name ∈ names, Json.member? name all = Json.member? name view := by
  cases j with
  | obj members =>
    obtain ⟨before, after, rfl, rfl, absent⟩ := splitTag tagged
    obtain ⟨once, rfl⟩ := recordObj.mp read
    refine ⟨_, recordObj.mpr ⟨(onceKnown List.mem_cons_self).mpr ⟨(onceAbsent absent).mpr once, absent⟩, rfl⟩,
      memberHere absent, fun name member => ?_⟩
    exact memberOther fun same => apart (same ▸ member)
  | arr items =>
    cases items with
    | nil => cases tagged
    | cons first rest =>
      cases tagged
      obtain ⟨short, rfl⟩ := recordArr.mp read
      refine ⟨_, recordArr.mpr ⟨Nat.succ_le_succ short, rfl⟩, if_pos rfl, fun name member => ?_⟩
      have other : tag ≠ name := fun same => apart (same ▸ member)
      exact if_neg other
  | _ => cases tagged

theorem recordTagged (apart : tag ∉ names) {all : List (String × Json)} (read : j.record? (tag :: names) = some all)
    (found : Json.member? tag all = some kind) : ∃ body view, j.tagged? tag = some (kind, body) ∧
      body.record? names = some view ∧ ∀ name ∈ names, Json.member? name all = Json.member? name view := by
  cases j with
  | obj members =>
    obtain ⟨once, rfl⟩ := recordObj.mp read
    obtain ⟨before, after, rfl, _⟩ := memberSplit found
    obtain ⟨once, absent⟩ := (onceKnown List.mem_cons_self).mp once
    refine ⟨_, _, tagSplit absent, recordObj.mpr ⟨(onceAbsent absent).mp once, rfl⟩, fun name member => ?_⟩
    exact memberOther fun same => apart (same ▸ member)
  | arr items =>
    obtain ⟨short, rfl⟩ := recordArr.mp read
    cases items with
    | nil => cases found
    | cons first rest =>
      have same : first = kind := Option.some.inj ((if_pos rfl).symm.trans found)
      subst same
      refine ⟨_, _, rfl, recordArr.mpr ⟨Nat.le_of_succ_le_succ short, rfl⟩, fun name member => ?_⟩
      have other : tag ≠ name := fun same => apart (same ▸ member)
      exact if_neg other
  | _ => cases read

end Tags

end Written

end BytecodeChecker
