import Gherkin.Proofs.ReferenceTokens
import Mathlib.Control.Basic

/-! Interpolation is one pass over a text. The references among its tokens are asked for in order, and
what is supplied for one is not read again. -/
namespace Gherkin.Reference

/-- Asks for the references in order and stops at the first for which there is no value. -/
def fill {m : Type → Type} [Monad m] (resolve : Reference → m (Option String)) :
    List Token → m (Except Unbound (List Char))
  | [] => pure (.ok [])
  | .char c :: ts => do return (← fill resolve ts).map (c :: ·)
  | .reference r :: ts => do
    match ← resolve r with
    | none => return .error { name := r.name }
    | some value => return (← fill resolve ts).map (value.toList ++ ·)

variable {c : Char} {r : Reference} {ts : List Token}

section

variable {m : Type → Type} [Monad m] [LawfulMonad m] (resolve : Reference → m (Option String))

theorem map_map_outcome {ε α β γ : Type} (f : β → γ) (g : α → β) (x : m (Except ε α)) :
    Except.map f <$> Except.map g <$> x = Except.map (f ∘ g) <$> x := by
  rw [Functor.map_map]
  congr
  funext r
  cases r <;> rfl

theorem fill_chars_append (s : List Char) (ts : List Token) :
    fill resolve (s.map .char ++ ts) = Except.map (s ++ ·) <$> fill resolve ts := by
  induction s with
  | nil =>
    refine (id_map' _).symm.trans (congrArg (· <$> fill resolve ts) ?_)
    funext r
    cases r <;> rfl
  | cons c s ih =>
    rw [List.map_cons, List.cons_append, fill, bind_pure_comp, ih, map_map_outcome]
    rfl

theorem map_append_map {ε α : Type} (s t : List α) (x : m (Except ε (List α))) :
    Except.map (s ++ ·) <$> Except.map (t ++ ·) <$> x = Except.map (s ++ t ++ ·) <$> x := by
  have happend : (s ++ ·) ∘ (t ++ ·) = (s ++ t ++ ·) := by
    funext u
    exact (List.append_assoc s t u).symm
  rw [map_map_outcome, happend]

theorem fill_dollar (out s : List Char) (ts : List Token) :
    Except.map (out ++ ·) <$> fill resolve (s.map .char ++ .char '$' :: ts) =
      Except.map (out ++ s ++ ['$'] ++ ·) <$> fill resolve ts := by
  have hdollar : fill resolve (.char '$' :: ts) = Except.map (['$'] ++ ·) <$> fill resolve ts :=
    fill_chars_append resolve ['$'] ts
  rw [fill_chars_append, map_append_map, hdollar, map_append_map]

/-- What the loop makes of a text is what its tokens come to, behind what was made before. -/
theorem fillFrom_eq_fill (out s : List Char) :
    fillFrom resolve out s = Except.map (out ++ ·) <$> fill resolve (tokens s) := by
  fun_induction fillFrom resolve out s with
  | case1 out s hs =>
    have htokens := tokens_append (Text.splitFirst?_singleton_eq_none.mp hs) []
    rw [List.append_nil, tokens] at htokens
    rw [htokens, fill_chars_append, map_append_map, fill, map_pure, Except.map, List.append_nil]
  | case2 out s before rest hs ih =>
    obtain ⟨rfl, hbefore⟩ := Text.splitFirst?_singleton_eq_some.mp hs
    rw [ih, tokens_append hbefore, tokens_pair, fill_dollar]
  | case3 out s before after hpair hs ha ih =>
    obtain ⟨rfl, hbefore⟩ := Text.splitFirst?_singleton_eq_some.mp hs
    rw [ih, tokens_append hbefore, tokens_single hpair ha, fill_dollar]
  | case4 out s before after hpair hs r rest ha ih =>
    obtain ⟨rfl, hbefore⟩ := Text.splitFirst?_singleton_eq_some.mp hs
    rw [tokens_append hbefore, tokens_reference ha, fill_chars_append, map_append_map, fill, map_bind]
    congr
    funext value?
    cases value? with
    | none =>
      rw [map_pure]
      rfl
    | some value =>
      dsimp only
      rw [ih, bind_pure_comp, map_append_map]

theorem interpolateM_eq_fill (text : String) :
    interpolateM resolve text = Except.map String.ofList <$> fill resolve (tokens text.toList) := by
  rw [interpolateM, bind_pure_comp, fillFrom_eq_fill, map_map_outcome]
  rfl

theorem fill_pure (resolve : Reference → Option String) (ts : List Token) :
    fill (fun r => (pure (resolve r) : m (Option String))) ts =
      pure (Id.run (fill (fun r => pure (resolve r)) ts)) := by
  induction ts with
  | nil => rfl
  | cons t ts ih =>
    cases t with
    | char c => simp [fill, ih]
    | reference r =>
      cases h : resolve r with
      | none => simp [fill, h]
      | some value => simp [fill, h, ih]

/-- Where values do not change it does not matter in what they are supplied. -/
theorem interpolateM_pure (resolve : Reference → Option String) (text : String) :
    interpolateM (fun r => (pure (resolve r) : m (Option String))) text =
      pure (interpolate resolve text) := by
  rw [interpolate, interpolateM_eq_fill, interpolateM_eq_fill, fill_pure, map_pure]
  rfl

end

section

variable {σ : Type} {resolve : Reference → StateM σ (Option String)} {start stop : σ}
  {outcome : Except Unbound (List Char)}

/-- Asked for these references one after the other, the resolver supplies these values. -/
inductive Supplies (resolve : Reference → StateM σ (Option String)) :
    σ → List Reference → List String → σ → Prop
  | nil {s : σ} : Supplies resolve s [] [] s
  | cons {s s' stop : σ} {r : Reference} {rs : List Reference} {value : String}
      {values : List String} (h : (resolve r).run s = (some value, s'))
      (hrest : Supplies resolve s' rs values stop) :
      Supplies resolve s (r :: rs) (value :: values) stop

/-- The tokens with values in the place of the references. -/
def spell : List Token → List String → List Char
  | .char c :: ts, values => c :: spell ts values
  | .reference _ :: ts, value :: values => value.toList ++ spell ts values
  | _, _ => []

/-- The resolver is asked for the references in order, up to the first that it does not supply. If it
supplies all of them, the outcome is spelled with the values. -/
inductive Answers (resolve : Reference → StateM σ (Option String)) (ts : List Token) (start : σ) :
    Except Unbound (List Char) → σ → Prop
  | filled {values : List String} {stop : σ}
      (h : Supplies resolve start (ts.filterMap Token.reference?) values stop) :
      Answers resolve ts start (.ok (spell ts values)) stop
  | unbound {before after : List Reference} {r : Reference} {values : List String} {s stop : σ}
      (hrs : ts.filterMap Token.reference? = before ++ r :: after)
      (h : Supplies resolve start before values s) (hr : (resolve r).run s = (none, stop)) :
      Answers resolve ts start (.error { name := r.name }) stop

theorem answers_nil_iff : Answers resolve [] start outcome stop ↔ outcome = .ok [] ∧ stop = start := by
  constructor
  · intro h
    cases h with
    | filled h =>
      cases h
      exact ⟨rfl, rfl⟩
    | unbound hrs => simp at hrs
  · rintro ⟨rfl, rfl⟩
    exact .filled .nil

theorem answers_char_iff : Answers resolve (.char c :: ts) start outcome stop ↔
    ∃ o, Answers resolve ts start o stop ∧ outcome = o.map (c :: ·) := by
  have href : (Token.char c :: ts).filterMap Token.reference? = ts.filterMap Token.reference? := rfl
  constructor
  · intro h
    cases h with
    | filled h => exact ⟨_, .filled (href ▸ h), rfl⟩
    | unbound hrs h hr => exact ⟨_, .unbound (href ▸ hrs) h hr, rfl⟩
  · rintro ⟨o, h, rfl⟩
    cases h with
    | filled h => exact .filled (href ▸ h)
    | unbound hrs h hr => exact .unbound (href ▸ hrs) h hr

theorem answers_reference_iff : Answers resolve (.reference r :: ts) start outcome stop ↔
    (resolve r).run start = (none, stop) ∧ outcome = .error { name := r.name } ∨
    ∃ value s o, (resolve r).run start = (some value, s) ∧ Answers resolve ts s o stop ∧
      outcome = o.map (value.toList ++ ·) := by
  have href : (Token.reference r :: ts).filterMap Token.reference? =
    r :: ts.filterMap Token.reference? := rfl
  constructor
  · intro h
    cases h with
    | filled h =>
      rw [href] at h
      cases h with
      | cons hr h => exact .inr ⟨_, _, _, hr, .filled h, rfl⟩
    | unbound hrs h hr =>
      rw [href] at hrs
      cases h with
      | nil =>
        cases hrs
        exact .inl ⟨hr, rfl⟩
      | cons hr' h =>
        obtain ⟨rfl, hrest⟩ := List.cons.inj hrs
        exact .inr ⟨_, _, _, hr', .unbound hrest h hr, rfl⟩
  · rintro (⟨hr, rfl⟩ | ⟨value, s, o, hr, h, rfl⟩)
    · exact .unbound href .nil hr
    · cases h with
      | filled h =>
        have hall := Supplies.cons hr h
        rw [← href] at hall
        exact .filled hall
      | unbound hrs h hr' => exact .unbound (by rw [href, hrs]; rfl) (.cons hr h) hr'

theorem run_fill_char {o : Except Unbound (List Char)}
    (h : (fill resolve ts).run start = (o, stop)) :
    (fill resolve (.char c :: ts)).run start = (o.map (c :: ·), stop) := by
  rw [fill, bind_pure_comp, StateT.run_map, h]
  rfl

theorem run_fill_unbound (hr : (resolve r).run start = (none, stop)) :
    (fill resolve (.reference r :: ts)).run start = (.error { name := r.name }, stop) := by
  rw [fill, StateT.run_bind, hr]
  rfl

theorem run_fill_bound {value : String} {s : σ} {o : Except Unbound (List Char)}
    (hr : (resolve r).run start = (some value, s)) (h : (fill resolve ts).run s = (o, stop)) :
    (fill resolve (.reference r :: ts)).run start = (o.map (value.toList ++ ·), stop) := by
  rw [fill, StateT.run_bind, hr]
  change (fill resolve ts >>= fun o => pure (o.map (value.toList ++ ·))).run s = _
  rw [bind_pure_comp, StateT.run_map, h]
  rfl

/-- Filling tokens asks for their references, and for nothing else. -/
theorem run_fill_eq_iff :
    (fill resolve ts).run start = (outcome, stop) ↔ Answers resolve ts start outcome stop := by
  induction ts generalizing start outcome with
  | nil =>
    rw [answers_nil_iff]
    constructor
    · rintro ⟨⟩
      exact ⟨rfl, rfl⟩
    · rintro ⟨rfl, rfl⟩
      rfl
  | cons t ts ih =>
    cases t with
    | char c =>
      rcases h : (fill resolve ts).run start with ⟨o, s⟩
      simp only [answers_char_iff, ← ih, run_fill_char h, h]
      constructor
      · rintro ⟨⟩
        exact ⟨o, rfl, rfl⟩
      · rintro ⟨_, ⟨⟩, rfl⟩
        rfl
    | reference r =>
      simp only [answers_reference_iff, ← ih]
      rcases hr : (resolve r).run start with ⟨_ | value, s⟩
      · rw [run_fill_unbound hr]
        constructor
        · rintro ⟨⟩
          exact .inl ⟨rfl, rfl⟩
        · rintro (⟨⟨⟩, rfl⟩ | ⟨_, _, _, ⟨⟩, -⟩)
          rfl
      · rcases h : (fill resolve ts).run s with ⟨o, s'⟩
        rw [run_fill_bound hr h]
        constructor
        · rintro ⟨⟩
          exact .inr ⟨value, s, o, rfl, h, rfl⟩
        · rintro (⟨⟨⟩, -⟩ | ⟨_, _, o', ⟨⟩, ho, rfl⟩)
          cases h.symm.trans ho
          rfl

end

theorem map_ofList_inj {o o' : Except Unbound (List Char)} :
    o.map String.ofList = o'.map String.ofList ↔ o = o' := by
  have hchars : ∀ s t, String.ofList s = String.ofList t ↔ s = t :=
    fun _ _ => ⟨String.ofList_injective, congrArg _⟩
  cases o <;> cases o' <;> simp [Except.map, hchars]

theorem run_interpolateM_iff {σ : Type} {resolve : Reference → StateM σ (Option String)}
    {start stop : σ} {outcome : Except Unbound (List Char)} (text : String) :
    (interpolateM resolve text).run start = (outcome.map String.ofList, stop) ↔
      Answers resolve (tokens text.toList) start outcome stop := by
  rcases h : (fill resolve (tokens text.toList)).run start with ⟨o, s⟩
  rw [interpolateM_eq_fill, ← run_fill_eq_iff, StateT.run_map, h]
  change (o.map String.ofList, s) = _ ↔ _
  rw [Prod.mk.injEq, Prod.mk.injEq, map_ofList_inj]

/-- Interpolation is one pass. There is one way to read the text, and whatever supplies the values is
asked for the references in that order up to the first that it does not supply. What it supplies
goes into the outcome as it is. -/
theorem interpolation_single_pass (text : String) :
    ∃ ts, (∀ ts', Reads text.toList ts' ↔ ts' = ts) ∧
      (∀ (σ : Type) (resolve : Reference → StateM σ (Option String)) (start stop : σ)
        (outcome : Except Unbound (List Char)),
        (interpolateM resolve text).run start = (outcome.map String.ofList, stop) ↔
          Answers resolve ts start outcome stop) ∧
      ∀ (resolve : Reference → Option String) (outcome : Except Unbound (List Char)),
        interpolate resolve text = outcome.map String.ofList ↔
          Answers (fun r => pure (resolve r)) ts () outcome () := by
  refine ⟨tokens text.toList, fun ts' => reads_iff, ?_, fun resolve outcome => ?_⟩
  · intro σ resolve start stop outcome
    exact run_interpolateM_iff text
  · rw [← run_interpolateM_iff, interpolateM_pure, StateT.run_pure]
    exact ⟨fun h => by rw [h]; rfl, fun h => (Prod.mk.inj h).1⟩

/-- What is supplied looks like a reference, and what is asked for is noted. -/
example :
    let resolve : Reference → StateM (List Reference) (Option String) := fun r asked =>
      (some "$<y>", asked ++ [r])
    Id.run ((interpolateM resolve "$$$<x> $<y $\x7bz\x7d").run []) =
      (.ok "$$<y> $<y $<y>", [.bound "x", .setting "z"]) := by
  decide +kernel

end Gherkin.Reference
