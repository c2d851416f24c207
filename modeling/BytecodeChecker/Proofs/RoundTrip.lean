import BytecodeChecker.Model.Format

/-! A model is read back from what is written for it. Scripts and predicates are read level by level, and the
depth of a value is as many levels as it needs, so that reading them can be opened without counting. -/
namespace BytecodeChecker

namespace Json

theorem uint16Read (n : UInt16) : uint16? (.int n.toNat) = some n := by
  have small := n.toNat_lt_size
  simp [uint16?, natBelow?, small]

theorem uint64Read (n : UInt64) : uint64? (.int n.toNat) = some n := by
  have small := n.toNat_lt_size
  simp [uint64?, natBelow?, small]

theorem int64Read (n : Int64) : int64? (.int n.toInt) = some n := by
  rw [int64?, if_pos ⟨n.minValue_le_toInt, n.toInt_le⟩, Int64.ofInt_toInt]

theorem listRead {α : Type} {item : Json → Option α} {write : α → Json} {xs : List α}
    (each : ∀ x ∈ xs, item (write x) = some x) : list? item (.arr (xs.map write)) = some xs := by
  have all : (xs.map write).mapM item = some xs := by
    induction xs with
    | nil => rfl
    | cons x xs ih =>
      have first := each x List.mem_cons_self
      have others := ih fun y member => each y (List.mem_cons_of_mem x member)
      rw [List.map_cons, List.mapM_cons, first, others]
      rfl
  exact all

theorem itemsDepthLe {items : List Json} {n : Nat} : itemsDepth items ≤ n ↔ ∀ v ∈ items, v.depth ≤ n := by
  induction items with
  | nil => simp [itemsDepth]
  | cons v rest ih => rw [itemsDepth, Nat.max_le, ih, List.forall_mem_cons]

theorem membersDepthLe {members : List (String × Json)} {n : Nat} :
    membersDepth members ≤ n ↔ ∀ m ∈ members, m.2.depth ≤ n := by
  induction members with
  | nil => simp [membersDepth]
  | cons m rest ih => rw [membersDepth, Nat.max_le, ih, List.forall_mem_cons]

theorem memberFound {name : String} {v : Json} {members : List (String × Json)}
    (found : member? name members = some v) : (name, v) ∈ members := by
  induction members with
  | nil => cases found
  | cons m rest ih =>
    simp only [member?] at found
    split at found
    · rename_i same
      cases found
      cases same
      exact List.mem_cons_self
    · exact List.mem_cons_of_mem _ (ih found)

theorem taggedDepth {tag : String} {j kind body : Json} (h : j.tagged? tag = some (kind, body)) :
    body.depth ≤ j.depth := by
  cases j with
  | obj members =>
    simp only [tagged?] at h
    split at h
    · cases h
      refine Nat.succ_le_succ (membersDepthLe.mpr fun m member => ?_)
      exact membersDepthLe.mp (Nat.le_refl _) m (List.mem_filter.mp member).1
    · cases h
  | arr items =>
    cases items with
    | nil => cases h
    | cons first rest =>
      cases h
      exact Nat.succ_le_succ (Nat.le_max_right _ _)
  | _ => cases h

theorem recordDepth {names : List String} {j : Json} {fields : List (String × Json)}
    (h : j.record? names = some fields) {name : String} {v : Json} (found : member? name fields = some v) :
    v.depth < j.depth := by
  cases j with
  | obj members =>
    simp only [record?] at h
    split at h
    · cases h
      exact Nat.lt_succ_of_le (membersDepthLe.mp (Nat.le_refl _) _ (memberFound found))
    · cases h
  | arr items =>
    simp only [record?] at h
    split at h
    · cases h
      have inside := (List.of_mem_zip (memberFound found)).2
      exact Nat.lt_succ_of_le (itemsDepthLe.mp (Nat.le_refl _) _ inside)
    · cases h
  | _ => cases h

theorem fieldSame {α : Type} {read read' : Json → Option α} {name : String} {fields : List (String × Json)}
    (same : ∀ v, member? name fields = some v → read v = read' v) :
    field? name read fields = field? name read' fields := by
  unfold field?
  cases found : member? name fields with
  | none => rfl
  | some v => exact same v found

theorem listSame {α : Type} {item item' : Json → Option α} {j : Json}
    (same : ∀ v, v.depth < j.depth → item v = item' v) : list? item j = list? item' j := by
  cases j with
  | arr items =>
    have each : ∀ v ∈ items, item v = item' v := fun v member =>
      same v (Nat.lt_succ_of_le (itemsDepthLe.mp (Nat.le_refl _) v member))
    clear same
    have all : items.mapM item = items.mapM item' := by
      induction items with
      | nil => rfl
      | cons v rest ih =>
        rw [List.mapM_cons, List.mapM_cons, each v List.mem_cons_self,
          ih fun w member => each w (List.mem_cons_of_mem v member)]
    exact all
  | _ => rfl

theorem itemsSame {α : Type} {item item' : Json → Option α} {body : Json}
    (same : ∀ v, v.depth < body.depth → item v = item' v) {names : List String} {fields : List (String × Json)}
    (read : body.record? names = some fields) {name : String} :
    field? name (list? item) fields = field? name (list? item') fields := by
  apply fieldSame
  intro v found
  apply listSame
  intro w deeper
  exact same w (Nat.lt_trans deeper (recordDepth read found))

theorem taggedSame {α : Type} {tag : String} {inside : Bool} {names : List String} {j : Json}
    {part part' : String → Json → Option α}
    (same : ∀ kind body, body.depth ≤ j.depth → part kind body = part' kind body) :
    ((j.tagged? tag).bind fun parts => (tagName? inside names parts.1).bind fun kind => part kind parts.2) =
      (j.tagged? tag).bind fun parts => (tagName? inside names parts.1).bind fun kind => part' kind parts.2 := by
  cases tagged : j.tagged? tag with
  | none => rfl
  | some parts =>
    have each : ∀ kind, part kind parts.2 = part' kind parts.2 := fun kind => same kind _ (taggedDepth tagged)
    exact congrArg (Option.bind (tagName? inside names parts.1)) (funext each)

end Json

namespace Predicate

theorem ofKindSame {inner inner' : Json → Option Predicate} {kind : String} {body : Json}
    (same : ∀ v, v.depth < body.depth → inner v = inner' v) : ofKind? inner kind body = ofKind? inner' kind body := by
  unfold ofKind?
  split
  · rfl
  · cases read : body.record? ["items"] with
    | none => rfl
    | some fields => exact congrArg (Option.bind · _) (Json.itemsSame same read)
  · cases read : body.record? ["items"] with
    | none => rfl
    | some fields => exact congrArg (Option.bind · _) (Json.itemsSame same read)
  · cases read : body.record? ["inner"] with
    | none => rfl
    | some fields =>
      exact congrArg (Option.bind · _) (Json.fieldSame fun v found => same v (Json.recordDepth read found))

theorem readSame {n k : Nat} {inside : Bool} {j : Json} (left : j.depth < n) (right : j.depth < k) :
    read? n inside j = read? k inside j := by
  induction n generalizing k inside j with
  | zero => omega
  | succ n ih =>
    cases k with
    | zero => omega
    | succ k =>
      exact Json.taggedSame fun kind body less => ofKindSame fun v deeper => ih (by omega) (by omega)

def value? (inside : Bool) (j : Json) : Option Predicate := read? (j.depth + 1) inside j

theorem valueEq {inside : Bool} {j : Json} : value? inside j = (j.tagged? "kind").bind fun parts =>
    (Json.tagName? inside kinds parts.1).bind fun kind => ofKind? (value? true) kind parts.2 := by
  exact Json.taggedSame fun kind body less => ofKindSame fun v deeper => readSame (by omega) (by omega)

mutual

theorem valueWritten (inside : Bool) : ∀ p : Predicate, value? inside p.toJson = some p
  | .compare field op value => by
    have known : Comparison.ofJsonInside? op.toJson = some op := by cases op <;> rfl
    rw [valueEq]
    simp [toJson, Json.tagged?, Json.tagName?, kinds, ofKind?, Json.record?, Json.field?, Json.member?, Json.str?,
      known, Json.int64Read]
  | .all items => by
    have nested := valuesWritten items
    rw [valueEq]
    simp [toJson, Json.tagged?, Json.tagName?, kinds, ofKind?, Json.record?, Json.field?, Json.member?, Json.list?,
      Json.arr?, nested]
  | .any items => by
    have nested := valuesWritten items
    rw [valueEq]
    simp [toJson, Json.tagged?, Json.tagName?, kinds, ofKind?, Json.record?, Json.field?, Json.member?, Json.list?,
      Json.arr?, nested]
  | .not inner => by
    have nested := valueWritten true inner
    rw [valueEq]
    simp [toJson, Json.tagged?, Json.tagName?, kinds, ofKind?, Json.record?, Json.field?, Json.member?, nested]

theorem valuesWritten : ∀ items : List Predicate, (listToJson items).mapM (value? true) = some items
  | [] => rfl
  | p :: rest => by
    have first := valueWritten true p
    have others := valuesWritten rest
    simp [listToJson, first, others]

end

mutual

theorem legibleWritten : ∀ p : Predicate, p.toJson.legible = true
  | .compare _ _ _ => rfl
  | .all items => by simp [toJson, Json.legible, Json.membersLegible, legiblesWritten items]
  | .any items => by simp [toJson, Json.legible, Json.membersLegible, legiblesWritten items]
  | .not inner => by simp [toJson, Json.legible, Json.membersLegible, legibleWritten inner]

theorem legiblesWritten : ∀ items : List Predicate, Json.itemsLegible (listToJson items) = true
  | [] => rfl
  | p :: rest => by simp [listToJson, Json.itemsLegible, legibleWritten p, legiblesWritten rest]

end

end Predicate

namespace Script

theorem ofKindSame {inner inner' : Json → Option Script} {predicate predicate' : Json → Option Predicate}
    {kind : String} {body : Json} (same : ∀ v, v.depth < body.depth → inner v = inner' v)
    (checks : ∀ v, v.depth < body.depth → predicate v = predicate' v) :
    ofKind? inner predicate kind body = ofKind? inner' predicate' kind body := by
  unfold ofKind?
  split
  · rfl
  · cases read : body.record? ["name", "predicate"] with
    | none => rfl
    | some fields =>
      have field : Json.field? "predicate" predicate fields = Json.field? "predicate" predicate' fields :=
        Json.fieldSame fun v found => checks v (Json.recordDepth read found)
      simp only [Option.bind_eq_bind, Option.bind_some, field]
  · rfl
  all_goals
    cases read : body.record? ["items"] with
    | none => rfl
    | some fields => exact congrArg (Option.bind · _) (Json.itemsSame same read)

theorem readSame {n k : Nat} {inside : Bool} {j : Json} (left : j.depth < n) (right : j.depth < k) :
    read? n inside j = read? k inside j := by
  induction n generalizing k inside j with
  | zero => omega
  | succ n ih =>
    cases k with
    | zero => omega
    | succ k =>
      exact Json.taggedSame fun kind body less => ofKindSame (fun v deeper => ih (by omega) (by omega))
        fun v deeper => Predicate.readSame (by omega) (by omega)

def value? (inside : Bool) (j : Json) : Option Script := read? (j.depth + 1) inside j

theorem valueEq {inside : Bool} {j : Json} : value? inside j = (j.tagged? "kind").bind fun parts =>
    (Json.tagName? inside kinds parts.1).bind fun kind =>
      ofKind? (value? true) (Predicate.value? true) kind parts.2 := by
  exact Json.taggedSame fun kind body less => ofKindSame (fun v deeper => readSame (by omega) (by omega))
    fun v deeper => Predicate.readSame (by omega) (by omega)

mutual

theorem valueWritten (inside : Bool) : ∀ s : Script, value? inside s.toJson = some s
  | .event (.normal name args) => by
    have values : Json.list? Json.int64? (.arr (args.map (.int ·.toInt))) = some args :=
      Json.listRead fun n _ => Json.int64Read n
    rw [valueEq]
    simp [toJson, Json.tagged?, Json.tagName?, kinds, ofKind?, Json.record?, Json.field?, Json.fieldOr?, Json.member?,
      Json.str?, values]
  | .event (.check name predicate) => by
    have nested := Predicate.valueWritten true predicate
    rw [valueEq]
    simp [toJson, Json.tagged?, Json.tagName?, kinds, ofKind?, Json.record?, Json.field?, Json.member?, Json.str?, nested]
  | .event .none => by
    rw [valueEq]
    simp [toJson, Json.tagged?, Json.tagName?, kinds, ofKind?, Json.noFields?]
  | .sequence items | .alternatives items | .interleave items => by
    have nested := valuesWritten items
    rw [valueEq]
    simp [toJson, Json.tagged?, Json.tagName?, kinds, ofKind?, Json.record?, Json.field?, Json.member?, Json.list?,
      Json.arr?, nested]

theorem valuesWritten : ∀ items : List Script, (listToJson items).mapM (value? true) = some items
  | [] => rfl
  | s :: rest => by
    have first := valueWritten true s
    have others := valuesWritten rest
    simp [listToJson, first, others]

end

mutual

theorem legibleWritten : ∀ s : Script, s.toJson.legible = true
  | .event (.normal name args) => by
    have values : Json.itemsLegible (args.map (.int ·.toInt)) = true := by
      induction args with
      | nil => rfl
      | cons n rest ih => simp [Json.itemsLegible, Json.legible, ih]
    simp [toJson, Json.legible, Json.membersLegible, values]
  | .event (.check _ predicate) => by
    simp [toJson, Json.legible, Json.membersLegible, predicate.legibleWritten]
  | .event .none => rfl
  | .sequence items | .alternatives items | .interleave items => by
    simp [toJson, Json.legible, Json.membersLegible, legiblesWritten items]

theorem legiblesWritten : ∀ items : List Script, Json.itemsLegible (listToJson items) = true
  | [] => rfl
  | s :: rest => by simp [listToJson, Json.itemsLegible, legibleWritten s, legiblesWritten rest]

end

theorem readWritten (s : Script) : ofJson? s.toJson = some s := by
  rw [ofJson?, if_pos s.legibleWritten]
  exact valueWritten false s

end Script

namespace NameMap

variable {α : Type}

theorem insertLast {name : String} {value : α} {entries : List (String × α)} (last : ∀ e ∈ entries, e.1 < name) :
    insertEntry name value entries = entries ++ [(name, value)] := by
  induction entries with
  | nil => rfl
  | cons head rest ih =>
    have first := last head List.mem_cons_self
    have behind : ¬ name < head.1 := fun less => String.lt_irrefl _ (String.lt_trans first less)
    have other : ¬ head.1 = name := fun same => String.lt_irrefl _ (same ▸ first)
    have others := ih fun e member => last e (List.mem_cons_of_mem _ member)
    simp [insertEntry, behind, other, others]

theorem insertAll {m : NameMap α} {bindings : List (String × α)}
    (sorted : (m.entries ++ bindings).Pairwise fun a b => a.1 < b.1) :
    (bindings.foldl (fun m b => m.insert b.1 b.2) m).entries = m.entries ++ bindings := by
  induction bindings generalizing m with
  | nil => simp
  | cons b rest ih =>
    have last : ∀ e ∈ m.entries, e.1 < b.1 := fun e member =>
      (List.pairwise_append.mp sorted).2.2 e member b List.mem_cons_self
    have inserted : (m.insert b.1 b.2).entries = m.entries ++ [b] := insertLast last
    rw [List.foldl_cons, ih, inserted, List.append_assoc, List.singleton_append]
    rwa [inserted, List.append_assoc, List.singleton_append]

theorem ofEntries (m : NameMap α) : ofList m.entries = m := by
  have same : (ofList m.entries).entries = m.entries := insertAll (m := empty) m.sorted
  cases m
  cases h : ofList _
  simp_all

end NameMap

namespace Model

namespace Code

theorem operandRead {α : Type} {name : String} {read : Json → Option α} {make : α → Code} {v : Json} {a : α}
    (h : read v = some a) : withOperand? name read make (.obj [(name, v)]) = some (make a) := by
  have single : Json.record? [name] (.obj [(name, v)]) = some [(name, v)] := by simp [Json.record?]
  simp [withOperand?, single, Json.field?, Json.member?, h]

theorem taggedWritten (c : Code) : c.toJson.tagged? "op" = some (.str c.mnemonic, .obj c.operand) := by
  have others : ∀ m ∈ c.operand, m.1 ≠ "op" := by cases c <;> simp [operand]
  have none : c.operand.filter (·.1 == "op") = [] := by simpa [List.filter_eq_nil_iff] using others
  have all : c.operand.filter (·.1 != "op") = c.operand := by simpa [List.filter_eq_self] using others
  simp [toJson, Json.tagged?, none, all]

theorem mnemonicRead (c : Code) : ofMnemonic? c.mnemonic (.obj c.operand) = some c := by
  cases c with
  | pushString s => exact operandRead rfl
  | pushLong n => exact operandRead (Json.int64Read n)
  | load kind slot => cases kind <;> exact operandRead (Json.uint16Read slot)
  | store kind slot => cases kind <;> exact operandRead (Json.uint16Read slot)
  | arith op => cases op <;> rfl
  | branch cond t => cases cond <;> exact operandRead (Json.uint64Read t)
  | branchNull onNull t => cases onNull <;> exact operandRead (Json.uint64Read t)
  | goto t => exact operandRead (Json.uint64Read t)
  | ret kind => rcases kind with _ | _ | _ <;> rfl
  | getStatic f | putStatic f | getField f | putField f => exact operandRead rfl
  | invokeStatic m => exact operandRead rfl
  | new c => exact operandRead rfl
  | _ => rfl

theorem readWritten (c : Code) : ofJson? c.toJson = some c := by
  have legible : c.toJson.legible = true := by cases c <;> rfl
  rw [ofJson?, if_pos legible, read?, taggedWritten]
  exact mnemonicRead c

end Code

theorem handlerWritten (h : Handler UInt64) : handlerOfJson? (handlerToJson h) = some h := by
  simp [handlerToJson, handlerOfJson?, Json.record?, Json.field?, Json.fieldOr?, Json.member?, Json.str?, Json.uint64Read]

theorem Method.readWritten (m : Method) : Method.ofJson? m.toJson = some m := by
  have code : Json.list? Code.ofJson? (.arr (m.code.map Code.toJson)) = some m.code :=
    Json.listRead fun c _ => c.readWritten
  have handlers : Json.list? handlerOfJson? (.arr (m.handlers.map handlerToJson)) = some m.handlers :=
    Json.listRead fun h _ => handlerWritten h
  simp [Method.toJson, Method.ofJson?, Json.record?, Json.field?, Json.fieldOr?, Json.member?, Json.str?, Json.bool?,
    Json.uint16Read, code, handlers]

theorem actionsWritten (actions : NameMap String) :
    actionsOfJson? (.obj (actions.entries.map fun b => (b.1, .str b.2))) = some actions := by
  have each : ∀ entries : List (String × String), (entries.map fun b => (b.1, Json.str b.2)).mapM
      (fun b => b.2.str?.map (b.1, ·)) = some entries := by
    intro entries
    induction entries with
    | nil => rfl
    | cons entry rest ih =>
      rw [List.map_cons, List.mapM_cons, ih]
      rfl
  exact Option.bind_eq_some_iff.mpr ⟨actions.entries, each actions.entries, congrArg some actions.ofEntries⟩

theorem eventsWritten (s : Script) : eventsOfJson? s.toJson = some (some s) := by
  have read := s.readWritten
  cases shape : s.toJson with
  | null =>
    rw [shape] at read
    cases read
  | _ =>
    rw [shape] at read
    simp [eventsOfJson?, read]

theorem fieldsRead {name entry : String} {threads : List String} {methods : List Method} {actions : NameMap String}
    {j : Json} {events : Option Script} (read : eventsOfJson? j = some events) :
    ofJson? (.obj [("name", .str name), ("entry", .str entry), ("threads", .strings threads),
      ("methods", .arr (methods.map Method.toJson)), ("events", j),
      ("actions", .obj (actions.entries.map fun b => (b.1, .str b.2)))]) =
      some ⟨name, entry, threads, methods, events, actions⟩ := by
  have strings : Json.list? Json.str? (Json.strings threads) = some threads := Json.listRead fun _ _ => rfl
  have bodies : Json.list? Method.ofJson? (.arr (methods.map Method.toJson)) = some methods :=
    Json.listRead fun d _ => d.readWritten
  simp [ofJson?, Json.record?, Json.field?, Json.fieldOr?, Json.member?, Json.str?, strings, bodies, read, actionsWritten]

theorem readWritten (m : Model) : ofJson? m.toJson = some m := by
  obtain ⟨name, entry, threads, methods, events, actions⟩ := m
  cases events with
  | none => exact fieldsRead rfl
  | some s => exact fieldsRead (eventsWritten s)

end Model

end BytecodeChecker
