import Gherkin.Document

/-! Fields of records as they are written and as they are read again. A field that is left out
stands for what it would have held. -/
namespace Gherkin

namespace Json

variable {α : Type} {fields : List (String × Json)} {key : String} {v : Json}
  {read : Json → Option α} {write : α → Json} {a default : α} {xs : List α} {o : Option α}
  {present : Bool} {shape : Shape} {kind : RecordKind}

@[simp] theorem lookup_cons {β : Type} (p : String × β) (fields : List (String × β))
    (key : String) :
    (p :: fields).lookup key = if key = p.1 then some p.2 else fields.lookup key := by
  obtain ⟨k, v⟩ := p
  by_cases h : key = k
  · simp [h]
  · simp [h, List.lookup_cons, beq_false_of_ne h]

@[simp] theorem lookup_fieldIf (present : Bool) (k : String) (v : Json) (key : String) :
    (fieldIf present k v).lookup key = if key = k ∧ present = true then some v else none := by
  cases present <;> simp [fieldIf]

@[simp] theorem mem_fieldIf {p : String × Json} :
    p ∈ fieldIf present key v ↔ present = true ∧ p = (key, v) := by
  cases present <;> simp [fieldIf]

theorem need_of_lookup (h : fields.lookup key = some v) (hread : read v = some a) :
    need fields key read = some a := by
  rw [need, h, Option.bind_some, hread]

theorem orDefault_of_lookup (h : fields.lookup key = some v) (hread : read v = some a) :
    orDefault fields key default read = some a := by
  rw [orDefault, h]
  exact hread

/-- A field may be left out if it holds the default. -/
theorem orDefault_of_lookup_ite (h : fields.lookup key = if present then some v else none)
    (hread : read v = some a) (hleft : present = false → a = default) :
    orDefault fields key default read = some a := by
  cases present with
  | true => exact orDefault_of_lookup h hread
  | false =>
    rw [orDefault, h, hleft rfl]
    rfl

theorem orDefault_cons (p : String × Json) (fields : List (String × Json)) (key : String)
    (default : α) (read : Json → Option α) :
    orDefault (p :: fields) key default read =
      if p.1 = key then read p.2 else orDefault fields key default read := by
  rw [orDefault, lookup_cons, orDefault]
  by_cases h : p.1 = key
  · rw [if_pos h, if_pos h.symm]
  · rw [if_neg h, if_neg (Ne.symm h)]

@[simp] theorem str?_str (s : String) : str? (str s) = some s := rfl

@[simp] theorem nat?_nat (n : Nat) : nat? (nat n) = some n := by
  simp [nat?, nat]

theorem list?_map (h : ∀ x ∈ xs, read (write x) = some x) :
    list? read (arr (xs.map write)) = some xs := by
  induction xs with
  | nil => rfl
  | cons x xs ih =>
    obtain ⟨hx, hxs⟩ := List.forall_mem_cons.mp h
    rw [list?] at ih ⊢
    rw [List.map_cons, List.mapM_cons, hx, ih hxs]
    rfl

@[simp] theorem strings?_strings (ss : List String) : strings? (strings ss) = some ss :=
  list?_map fun _ _ => rfl

theorem optional?_opt (h : ∀ a, o = some a → read (write a) = some a)
    (hnull : ∀ a, write a ≠ null) : optional? read (opt write o) = some o := by
  cases o with
  | none => rfl
  | some a =>
    rw [opt, optional?, h a rfl, Option.map_some]
    exact hnull a

theorem orDefault_list
    (hfield : fields.lookup key = if !xs.isEmpty then some (arr (xs.map write)) else none)
    (h : ∀ x ∈ xs, read (write x) = some x) : orDefault fields key [] (list? read) = some xs :=
  orDefault_of_lookup_ite hfield (list?_map h) (by simp)

theorem orDefault_optional
    (hfield : fields.lookup key = if o.isSome then some (opt write o) else none)
    (h : ∀ a, o = some a → read (write a) = some a) (hnull : ∀ a, write a ≠ null) :
    orDefault fields key none (optional? read) = some o :=
  orDefault_of_lookup_ite hfield (optional?_opt h hnull) (by simp)

theorem eq_default_or_of_orDefault (h : orDefault fields key default read = some a) :
    a = default ∨ ∃ v, read v = some a := by
  unfold orDefault at h
  split at h
  · exact Or.inl (Option.some.inj h).symm
  · exact Or.inr ⟨_, h⟩

/-- Every item of a list that was read was read itself. -/
theorem exists_of_list? (h : list? read v = some xs) : ∀ x ∈ xs, ∃ w, read w = some x := by
  cases v with
  | arr items =>
    rw [list?] at h
    induction items generalizing xs with
    | nil =>
      cases h
      simp
    | cons w items ih =>
      simp only [List.mapM_cons, bind, Option.bind_eq_some_iff, pure, Option.some.injEq] at h
      obtain ⟨x, hx, rest, hrest, rfl⟩ := h
      exact List.forall_mem_cons.mpr ⟨⟨w, hx⟩, ih hrest⟩
  | _ => cases h

theorem exists_of_orDefault_list (h : orDefault fields key [] (list? read) = some xs) :
    ∀ x ∈ xs, ∃ v, read v = some x := by
  rcases eq_default_or_of_orDefault h with rfl | ⟨v, hv⟩
  · simp
  · exact exists_of_list? hv

theorem exists_of_orDefault_optional (h : orDefault fields key none (optional? read) = some o) :
    ∀ a, o = some a → ∃ v, read v = some a := by
  rcases eq_default_or_of_orDefault h with rfl | ⟨v, hv⟩
  · simp
  · rintro a rfl
    unfold optional? at hv
    split at hv
    · cases hv
    · exact ⟨v, by simpa using hv⟩

/-- What goes through the fields for the first one of a name reads that field. -/
theorem eq_orDefault {find : List (String × Json) → Option α} (hnil : find [] = some default)
    (hcons : ∀ k v rest, find ((k, v) :: rest) = if k == key then read v else find rest)
    (fields : List (String × Json)) : find fields = orDefault fields key default read := by
  induction fields with
  | nil => exact hnil
  | cons p fields ih =>
    rw [hcons, orDefault_cons, ih]
    simp only [beq_iff_eq]

/-- What reads the items of an array one after the other reads a list. -/
theorem eq_list? {readList : Json → Option (List α)} {readAll : List Json → Option (List α)}
    (hlist : ∀ v, readList v = v.arr?.bind readAll) (hnil : readAll [] = some [])
    (hcons : ∀ v vs, readAll (v :: vs) = do some ((← read v) :: (← readAll vs))) :
    readList = list? read := by
  have hall : ∀ vs, readAll vs = vs.mapM read := by
    intro vs
    induction vs with
    | nil => exact hnil
    | cons v vs ih =>
      rw [hcons, List.mapM_cons, ih]
      rfl
  funext v
  rw [hlist]
  cases v with
  | arr items => exact hall items
  | _ => rfl

@[simp] theorem keyed_any (v : Json) : keyed .any v = v := by
  cases v <;> simp [keyed, Shape.core]

@[simp] theorem keyed_str (shape : Shape) (s : String) : keyed shape (str s) = str s := by
  simp [keyed]

@[simp] theorem keyed_bool (shape : Shape) (b : Bool) : keyed shape (bool b) = bool b := by
  simp [keyed]

@[simp] theorem keyed_nat (shape : Shape) (n : Nat) : keyed shape (nat n) = nat n := by
  simp [keyed, nat]

@[simp] theorem keyed_optional (shape : Shape) (v : Json) :
    keyed (.optional shape) v = keyed shape v := by
  cases v <;> simp [keyed]

theorem keyed_opt (h : ∀ a, o = some a → keyed shape (write a) = write a) :
    keyed shape (opt write o) = opt write o := by
  cases o with
  | none => simp [keyed, opt]
  | some a => exact h a rfl

theorem keyedItems_eq (shape : Shape) (vs : List Json) :
    keyedItems shape vs = vs.map (keyed shape) := by
  induction vs with
  | nil => rfl
  | cons v vs ih => rw [keyedItems, ih, List.map_cons]

theorem keyedFields_eq (shapes : List (String × Shape)) (fields : List (String × Json)) :
    keyedFields shapes fields =
      fields.map fun p => (p.1, keyed ((shapes.lookup p.1).getD .any) p.2) := by
  induction fields with
  | nil => rfl
  | cons p fields ih => rw [keyedFields, ih, List.map_cons]

theorem keyed_list (h : ∀ x ∈ xs, keyed shape (write x) = write x) :
    keyed (.list shape) (arr (xs.map write)) = arr (xs.map write) := by
  simp only [keyed, Shape.core, keyedItems_eq, List.map_map]
  exact congrArg arr (List.map_congr_left h)

@[simp] theorem keyed_strings (ss : List String) :
    keyed (.list .text) (strings ss) = strings ss :=
  keyed_list fun s _ => keyed_str .text s

/-- A record is an object already. -/
theorem keyed_record
    (h : ∀ p ∈ fields, keyed ((kind.fields.lookup p.1).getD .any) p.2 = p.2) :
    keyed (.record kind) (obj fields) = obj fields := by
  simp only [keyed, Shape.core, keyedFields_eq]
  have hfields : fields.map (fun p => (p.1, keyed ((kind.fields.lookup p.1).getD .any) p.2)) =
      fields.map id :=
    List.map_congr_left fun p hp => Prod.ext rfl (h p hp)
  rw [hfields, List.map_id]

end Json

open Json

theorem Duration.ofNanos?_nanos (d : Duration) :
    ofNanos? (d.seconds * nanosPerSecond + d.subsecond) = some d := by
  rw [seconds, subsecond, Nat.div_add_mod', ofNanos?, dif_pos d.inRange]

theorem Duration.subsecond_lt (d : Duration) : d.subsecond < UInt32.size :=
  Nat.lt_trans (Nat.mod_lt d.nanos (by decide : 0 < nanosPerSecond)) (by decide)

theorem Duration.ofJson?_toJson (d : Duration) : ofJson? d.toJson = some d := by
  simp only [ofJson?, toJson, record?, need, lookup_cons, List.lookup_nil, bind, Option.bind_some,
    if_true, String.reduceEq, if_false, nat?_nat]
  rw [if_pos, ofNanos?_nanos]
  simp [d.subsecond_lt]

theorem Status.ofJson?_toJson (s : Status) : ofJson? s.toJson = some s := by
  cases s <;>
    simp [ofJson?, toJson, Status.fields?, need, keyword, Duration.ofJson?_toJson]

theorem Position.ofJson?_toJson (p : Position) : ofJson? p.toJson = some p := by
  simp [ofJson?, toJson, Json.fields?, need]

theorem Attachment.ofJson?_toJson (a : Attachment) : ofJson? a.toJson = some a := by
  simp [ofJson?, toJson, Json.fields?, need]

theorem Row.ofJson?_toJson (r : Row) : ofJson? r.toJson = some r := by
  simp [ofJson?, toJson, Json.fields?, need, orDefault]

theorem Tag.ofJson?_eq_some {t : Tag} {v : Json} :
    Tag.ofJson? v = some t ↔ ∃ text, v = str text ∧ parse text = .ok t := by
  cases v with
  | str text =>
    simp only [Tag.ofJson?, str?, bind, Option.bind_some, Json.str.injEq, exists_eq_left']
    cases parse text <;> simp
  | _ => simp [Tag.ofJson?, str?]

theorem Header.ofJson?_toJson {h : Header} (ht : ∀ t ∈ h.tags, Tag.ofJson? t.toJson = some t) :
    ofJson? h.toJson = some h := by
  simp [ofJson?, toJson, Json.fields?, need, orDefault, list?_map ht]

theorem Position.keyed_toJson (p : Position) :
    keyed (.record .position) p.toJson = p.toJson :=
  keyed_record (by simp [RecordKind.fields])

theorem Attachment.keyed_toJson (a : Attachment) :
    keyed (.record .attachment) a.toJson = a.toJson :=
  keyed_record (by simp [RecordKind.fields])

theorem Row.keyed_toJson (r : Row) : keyed (.record .row) r.toJson = r.toJson :=
  keyed_record (by simp [RecordKind.fields])

theorem Tag.keyed_list_toJson (ts : List Tag) :
    keyed (.list .text) (arr (ts.map Tag.toJson)) = arr (ts.map Tag.toJson) :=
  keyed_list fun t _ => keyed_str .text t.render

theorem Header.keyed_toJson (h : Header) : keyed (.record .header) h.toJson = h.toJson :=
  keyed_record (by simp [RecordKind.fields, Tag.keyed_list_toJson])

-- The readers of nested records, in terms of those for fields, lists and what may be null.

theorem Step.ofList?_eq : Step.ofList? = list? Step.ofRecord? :=
  eq_list? (fun v => by cases v <;> rfl) (by rw [ofItems?])
    fun v vs => by rw [ofItems?]

theorem Step.listIn?_eq (fields : List (String × Json)) :
    Step.listIn? fields = orDefault fields "steps" [] (list? Step.ofRecord?) :=
  eq_orDefault (by rw [listIn?]) (fun k v rest => by rw [listIn?, ofList?_eq]) fields

theorem Background.in?_eq (fields : List (String × Json)) :
    Background.in? fields = orDefault fields "background" none (optional? Background.ofRecord?) :=
  eq_orDefault (by rw [in?]) (fun k v rest => by cases v <;> simp [in?, optional?]) fields

theorem Scenario.bodyIn?_eq (fields : List (String × Json)) :
    Scenario.bodyIn? fields = orDefault fields "stepdef" none (optional? Scenario.ofRecord?) :=
  eq_orDefault (by rw [bodyIn?]) (fun k v rest => by cases v <;> simp [bodyIn?, optional?]) fields

theorem Scenario.ofList?_eq : Scenario.ofList? = list? Scenario.ofRecord? :=
  eq_list? (fun v => by cases v <;> rfl) (by rw [ofItems?])
    fun v vs => by rw [ofItems?]

theorem Scenario.listIn?_eq (fields : List (String × Json)) :
    Scenario.listIn? fields = orDefault fields "scenarios" [] (list? Scenario.ofRecord?) :=
  eq_orDefault (by rw [listIn?]) (fun k v rest => by rw [listIn?, ofList?_eq]) fields

theorem Examples.ofList?_eq : Examples.ofList? = list? Examples.ofRecord? :=
  eq_list? (fun v => by cases v <;> rfl) (by rw [ofItems?])
    fun v vs => by rw [ofItems?]

theorem Examples.listIn?_eq (fields : List (String × Json)) :
    Examples.listIn? fields = orDefault fields "examples" [] (list? Examples.ofRecord?) :=
  eq_orDefault (by rw [listIn?]) (fun k v rest => by rw [listIn?, ofList?_eq]) fields

theorem Feature.ofList?_eq : Feature.ofList? = list? Feature.ofRecord? :=
  eq_list? (fun v => by cases v <;> rfl) (by rw [ofItems?])
    fun v vs => by rw [ofItems?]

theorem Feature.metasIn?_eq (fields : List (String × Json)) :
    Feature.metasIn? fields = orDefault fields "metas" [] (list? Feature.ofRecord?) :=
  eq_orDefault (by rw [metasIn?]) (fun k v rest => by rw [metasIn?, ofList?_eq]) fields

-- The writers of nested records in the same terms.

theorem Step.listToJson_eq (ss : List Step) : Step.listToJson ss = ss.map Step.toJson := by
  induction ss with
  | nil => rfl
  | cons s ss ih => rw [Step.listToJson, ih, List.map_cons]

theorem Background.toFields_eq (b : Option Background) :
    Background.toFields b = fieldIf b.isSome "background" (opt Background.toJson b) := by
  cases b <;> rfl

theorem Scenario.bodyToFields_eq (b : Option Scenario) :
    Scenario.bodyToFields b = fieldIf b.isSome "stepdef" (opt Scenario.toJson b) := by
  cases b <;> rfl

theorem Scenario.listToJson_eq (ss : List Scenario) :
    Scenario.listToJson ss = ss.map Scenario.toJson := by
  induction ss with
  | nil => rfl
  | cons s ss ih => rw [Scenario.listToJson, ih, List.map_cons]

theorem Examples.listToJson_eq (es : List Examples) :
    Examples.listToJson es = es.map Examples.toJson := by
  induction es with
  | nil => rfl
  | cons e es ih => rw [Examples.listToJson, ih, List.map_cons]

theorem Feature.listToJson_eq (fs : List Feature) :
    Feature.listToJson fs = fs.map Feature.toJson := by
  induction fs with
  | nil => rfl
  | cons f fs ih => rw [Feature.listToJson, ih, List.map_cons]

end Gherkin
