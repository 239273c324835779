/-!
Names with values, in an order that lasts: setting a name again keeps its place.
-/

namespace Gherkin

abbrev Pairs := List (String × String)

namespace Pairs

/-- The value of the first pair with that name. -/
def get? (ps : Pairs) (name : String) : Option String :=
  (ps.find? (·.1 == name)).map (·.2)

/-- Puts a value in the place its name already has, or in the last place. -/
def put (name value : String) : Pairs → Pairs
  | [] => [(name, value)]
  | p :: ps => if p.1 == name then (name, value) :: ps else p :: put name value ps

/-- Puts every pair of `qs` in turn. -/
def putAll (ps qs : Pairs) : Pairs :=
  qs.foldl (fun acc (name, value) => put name value acc) ps

@[simp] theorem get?_nil (name : String) : get? [] name = none := rfl

theorem get?_cons (p : String × String) (ps : Pairs) (name : String) :
    get? (p :: ps) name = if p.1 = name then some p.2 else get? ps name := by
  by_cases h : p.1 = name <;> simp [get?, h]

theorem get?_eq_none_iff {ps : Pairs} {name : String} :
    get? ps name = none ↔ ∀ value, (name, value) ∉ ps := by
  simp only [get?, Option.map_eq_none_iff, List.find?_eq_none, beq_iff_eq]
  exact ⟨fun h value hm => h _ hm rfl, fun h p hp he => h p.2 (he ▸ hp)⟩

theorem get?_put (name value m : String) (ps : Pairs) :
    get? (put name value ps) m = if name = m then some value else get? ps m := by
  induction ps with
  | nil => simp [put, get?_cons]
  | cons p ps ih =>
    simp only [put, beq_iff_eq]
    split
    · next hp => simp only [get?_cons, hp]; split <;> rfl
    · next hp =>
      simp only [get?_cons, ih]
      split
      · next hm => rw [if_neg fun h => hp (hm.trans h.symm)]
      · rfl

theorem get?_eq_some_iff {ps : Pairs} {name value : String} :
    get? ps name = some value ↔
      ∃ before after, ps = before ++ (name, value) :: after ∧ name ∉ before.map (·.1) := by
  simp only [get?, Option.map_eq_some_iff, List.find?_eq_some_iff_append, List.mem_map]
  constructor
  · rintro ⟨p, ⟨hp, before, after, rfl, hbefore⟩, rfl⟩
    refine ⟨before, after, by rw [← eq_of_beq hp], ?_⟩
    rintro ⟨q, hq, rfl⟩
    simpa using hbefore q hq
  · rintro ⟨before, after, rfl, hbefore⟩
    refine ⟨(name, value), ⟨beq_self_eq_true name, before, after, rfl, fun q hq => ?_⟩, rfl⟩
    rw [Bool.not_eq_true', beq_eq_false_iff_ne]
    exact fun he => hbefore ⟨q, hq, he⟩

theorem get?_append (ps qs : Pairs) (name : String) :
    get? (ps ++ qs) name = (get? ps name).or (get? qs name) := by
  simp only [get?, List.find?_append, Option.map_or]

/-- The value put last counts. -/
theorem get?_putAll (ps qs : Pairs) (name : String) :
    get? (putAll ps qs) name = (get? qs.reverse name).or (get? ps name) := by
  induction qs generalizing ps with
  | nil => rfl
  | cons q qs ih =>
    change get? (putAll (put q.1 q.2 ps) qs) name = _
    rw [ih, List.reverse_cons, get?_append, get?_put, get?_cons, Option.or_assoc]
    split <;> simp

theorem putAll_append (ps qs rs : Pairs) :
    putAll ps (qs ++ rs) = putAll (putAll ps qs) rs :=
  List.foldl_append

theorem names_put (name value : String) (ps : Pairs) :
    (put name value ps).map (·.1) =
      if name ∈ ps.map (·.1) then ps.map (·.1) else ps.map (·.1) ++ [name] := by
  induction ps with
  | nil => rfl
  | cons p ps ih =>
    by_cases hp : p.1 = name
    · simp [put, hp]
    · have hne : name ≠ p.1 := Ne.symm hp
      simp only [put, beq_iff_eq, hp, if_false, List.map_cons, ih, List.mem_cons, hne, false_or]
      split <;> rfl

theorem eraseDups_concat (names : List String) (name : String) :
    (names ++ [name]).eraseDups =
      if name ∈ names then names.eraseDups else names.eraseDups ++ [name] := by
  rw [List.eraseDups_append]
  by_cases h : name ∈ names <;> simp [List.removeAll, List.eraseDups_cons, h]

theorem nodup_concat {names : List String} {name : String} (h : names.Nodup) (hn : name ∉ names) :
    (names ++ [name]).Nodup := by
  refine List.nodup_append.mpr ⟨h, by simp, ?_⟩
  rintro a ha b hb rfl
  exact hn (List.mem_singleton.mp hb ▸ ha)

/-- The names stand in the order in which they were first put. -/
theorem names_putAll {ps : Pairs} {names : List String} (h : ps.map (·.1) = names.eraseDups)
    (qs : Pairs) : (putAll ps qs).map (·.1) = (names ++ qs.map (·.1)).eraseDups := by
  induction qs generalizing ps names with
  | nil => rwa [List.map_nil, List.append_nil]
  | cons q qs ih =>
    rw [List.map_cons, List.append_cons]
    refine ih ?_
    simp only [names_put, h, eraseDups_concat, List.mem_eraseDups]

theorem names_putAll_nil (qs : Pairs) : (putAll [] qs).map (·.1) = (qs.map (·.1)).eraseDups :=
  @names_putAll [] [] rfl qs

theorem nodup_names_put {name value : String} {ps : Pairs} (h : (ps.map (·.1)).Nodup) :
    ((put name value ps).map (·.1)).Nodup := by
  rw [names_put]
  split
  · exact h
  · next hn => exact nodup_concat h hn

theorem nodup_names_putAll {ps : Pairs} (h : (ps.map (·.1)).Nodup) (qs : Pairs) :
    ((putAll ps qs).map (·.1)).Nodup := by
  induction qs generalizing ps with
  | nil => exact h
  | cons q qs ih => exact ih (nodup_names_put h)

theorem put_put (name value old : String) (ps : Pairs) :
    put name value (put name old ps) = put name value ps := by
  induction ps with
  | nil => simp [put]
  | cons p ps ih => by_cases hp : p.1 = name <;> simp [put, hp, ih]

/-- A name that has its place already can be put sooner or later. -/
theorem put_comm {name other : String} (hne : name ≠ other) (value x : String) {ps : Pairs}
    (h : name ∈ ps.map (·.1)) :
    put name value (put other x ps) = put other x (put name value ps) := by
  induction ps with
  | nil => cases h
  | cons p ps ih =>
    by_cases hp : p.1 = name
    · simp [put, hp, hne]
    · by_cases ho : p.1 = other
      · simp [put, ho, hne.symm]
      · have hm : name ∈ ps.map (·.1) := (List.mem_cons.mp h).resolve_left (Ne.symm hp)
        simp [put, hp, ho, ih hm]

theorem put_putAll_comm {name : String} (value : String) {ps qs : Pairs}
    (hq : name ∉ qs.map (·.1)) (hp : name ∈ ps.map (·.1)) :
    put name value (putAll ps qs) = putAll (put name value ps) qs := by
  induction qs generalizing ps with
  | nil => rfl
  | cons q qs ih =>
    rw [List.map_cons, List.mem_cons, not_or] at hq
    have hput : name ∈ (put q.1 q.2 ps).map (·.1) := by
      rw [names_put]
      split
      · exact hp
      · exact List.mem_append_left _ hp
    change put name value (putAll (put q.1 q.2 ps) qs) = putAll (put q.1 q.2 (put name value ps)) qs
    rw [ih hq.2 hput, put_comm hq.1 value q.2 hp]

theorem putAll_put (name value : String) {ps qs : Pairs} (h : (qs.map (·.1)).Nodup) :
    putAll ps (put name value qs) = put name value (putAll ps qs) := by
  induction qs generalizing ps with
  | nil => rfl
  | cons q qs ih =>
    obtain ⟨hq, h⟩ := List.nodup_cons.mp h
    by_cases hn : q.1 = name
    · subst hn
      rw [put, if_pos (beq_self_eq_true _)]
      change putAll (put q.1 value ps) qs = put q.1 value (putAll (put q.1 q.2 ps) qs)
      have hput : q.1 ∈ (put q.1 q.2 ps).map (·.1) := by
        rw [names_put]
        split <;> simp_all
      rw [put_putAll_comm value hq hput, put_put]
    · rw [put, if_neg (by simpa using hn)]
      exact ih h

/-- Names with their values may be put together first, if none comes twice. -/
theorem putAll_assoc {ps qs : Pairs} (h : (qs.map (·.1)).Nodup) (rs : Pairs) :
    putAll ps (putAll qs rs) = putAll (putAll ps qs) rs := by
  induction rs generalizing qs with
  | nil => rfl
  | cons r rs ih =>
    change putAll ps (putAll (put r.1 r.2 qs) rs) = putAll (put r.1 r.2 (putAll ps qs)) rs
    rw [ih (nodup_names_put h), putAll_put r.1 r.2 h]

theorem putAll_putAll_nil (ps qs : Pairs) : putAll ps (putAll [] qs) = putAll ps qs :=
  @putAll_assoc ps [] List.nodup_nil qs

/-- A name has the value in the place where it comes first. -/
theorem get?_zip_eq (names values : List String) (name : String) :
    get? (names.zip values) name = (names.idxOf? name).bind (values[·]?) := by
  induction names generalizing values with
  | nil => rfl
  | cons n ns ih =>
    cases values with
    | nil => simp
    | cons value values =>
      rw [List.zip_cons_cons, get?_cons, List.idxOf?_cons, ih]
      by_cases hn : n = name
      · simp [hn]
      · simp only [hn, if_false, beq_iff_eq, Option.bind_map]
        rfl

/-- Different names get their values back in order. -/
theorem get?_zip {names values : List String} (hd : names.Nodup)
    (hl : names.length = values.length) :
    names.map (get? (names.zip values)) = values.map some := by
  induction names generalizing values with
  | nil => simp_all [eq_comm]
  | cons n ns ih =>
    cases values with
    | nil => simp at hl
    | cons value values =>
      obtain ⟨hn, hd⟩ := List.nodup_cons.mp hd
      have hrest : ∀ name ∈ ns, get? ((n, value) :: ns.zip values) name =
          get? (ns.zip values) name := by
        intro name hm
        rw [get?_cons, if_neg]
        rintro rfl
        exact hn hm
      rw [List.zip_cons_cons, List.map_cons, List.map_congr_left hrest, get?_cons, if_pos rfl,
        ih hd (Nat.succ.inj hl)]
      rfl

end Pairs

end Gherkin
