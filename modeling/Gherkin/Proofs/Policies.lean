import Gherkin.Proofs.Blindness
import Gherkin.Proofs.Outcomes
import Gherkin.Proofs.Verdict

/-! Failing fast and exiting on failure. A policy cuts the run of scenarios after its first failure
and changes nothing before it. -/
namespace Gherkin

open EvalM

variable {σ : Type} (action : Action σ) (ctx : Context σ)

/-- What counts as a failure so far is what the results so far fold to. -/
theorem exec_evaluateScenarios_fold (results : List Scenario) (s : Scenario) (ss : List Scenario) :
    let failed (results : List Scenario) := (Status.fold (results.map (·.status))).isFailed
    exec (evaluateScenarios action (failed results) (s :: ss)) ctx =
      if failed results && ctx.options.exitOnFail then (.ok [], ctx)
      else if failed results && ctx.options.failFast then
        (.ok ((s :: ss).map (·.marked .skipped)), ctx)
      else match exec (s.evaluate action) ctx with
        | (.error e, c) => (.error e, c)
        | (.ok done, c) =>
          let rest := exec (evaluateScenarios action (failed (results ++ [done])) ss) c
          (rest.1.map (done :: ·), rest.2) := by
  intro failed
  have hflag : ∀ done : Scenario,
      failed (results ++ [done]) = (failed results || done.status.isFailed) := by
    intro done
    simp only [failed, List.map_append, List.map_singleton, Status.isFailed_fold_concat]
  simp only [hflag]
  exact exec_evaluateScenarios_cons action ctx (failed results) s ss

/-- The scenarios evaluated under the given policies. -/
def evaluateUnder (failFast exitOnFail : Bool) (ss : List Scenario) :
    Except EvalError (List Scenario) × Context σ :=
  exec (evaluateScenarios action false ss) (ctx.withPolicy failFast exitOnFail)

@[simp] theorem evaluateUnder_nil (f e : Bool) :
    evaluateUnder action ctx f e [] = (.ok [], ctx.withPolicy f e) := rfl

@[simp] theorem evaluateUnder_withPolicy (f e f' e' : Bool) (ss : List Scenario) :
    evaluateUnder action (ctx.withPolicy f' e') f e ss = evaluateUnder action ctx f e ss := rfl

/-- What is returned for the scenarios that a policy keeps from being evaluated. -/
def withheld (exitOnFail : Bool) (ss : List Scenario) : List Scenario :=
  if exitOnFail then [] else ss.map (·.marked .skipped)

/-- Without a policy it does not matter that something failed before. -/
theorem evaluateScenarios_plain (ss : List Scenario) :
    exec (evaluateScenarios action true ss) (ctx.withPolicy false false) =
      evaluateUnder action ctx false false ss := by
  induction ss generalizing ctx with
  | nil => rfl
  | cons s ss ih =>
    rw [evaluateUnder, exec_evaluateScenarios_cons, exec_evaluateScenarios_cons, Blind.scenario]
    rcases exec (s.evaluate action) ctx with ⟨_ | done, c⟩
    · rfl
    · have hc : ∀ failed, exec (evaluateScenarios action failed ss) (c.withPolicy false false) =
          evaluateUnder action c false false ss
        | true => ih c
        | false => rfl
      simp only [hc]
      rfl

theorem evaluateScenarios_withheld {f e : Bool} (h : (f || e) = true) (ss : List Scenario) :
    exec (evaluateScenarios action true ss) (ctx.withPolicy f e) =
      (.ok (withheld e ss), ctx.withPolicy f e) := by
  cases ss with
  | nil => cases e <;> rfl
  | cons s ss =>
    rw [exec_evaluateScenarios_cons]
    cases e with
    | true => rfl
    | false =>
      obtain rfl : f = true := by simpa using h
      rfl

theorem evaluateUnder_cons (f e : Bool) (s : Scenario) (ss : List Scenario) :
    evaluateUnder action ctx f e (s :: ss) =
      match exec (s.evaluate action) ctx with
      | (.error x, c) => (.error x, c.withPolicy f e)
      | (.ok done, c) =>
        if done.status.isFailed && (f || e) then (.ok (done :: withheld e ss), c.withPolicy f e)
        else
          let rest := evaluateUnder action c f e ss
          (rest.1.map (done :: ·), rest.2) := by
  rw [evaluateUnder, exec_evaluateScenarios_cons, Blind.scenario]
  simp only [Bool.false_and, Bool.false_eq_true, if_false, Bool.false_or]
  rcases exec (s.evaluate action) ctx with ⟨_ | done, c⟩
  · rfl
  · dsimp only
    cases hd : done.status.isFailed with
    | false => rfl
    | true =>
      cases hp : f || e with
      | true => rw [evaluateScenarios_withheld action c hp]; rfl
      | false =>
        obtain ⟨rfl, rfl⟩ : f = false ∧ e = false := by simpa using hp
        rw [evaluateScenarios_plain]
        rfl

/-- How many of the results stand up to the first failure, or in all if nothing failed. -/
def cut : List Scenario → Nat
  | [] => 0
  | d :: ds => if d.status.isFailed then 1 else cut ds + 1

theorem cut_le_length (ds : List Scenario) : cut ds ≤ ds.length := by
  induction ds with
  | nil => exact Nat.le_refl 0
  | cons d ds ih =>
    simp only [cut, List.length_cons]
    split <;> omega

theorem cut_of_not_failed {ds : List Scenario} (h : ∀ d ∈ ds, d.status.isFailed = false) :
    cut ds = ds.length := by
  induction ds with
  | nil => rfl
  | cons d ds ih =>
    obtain ⟨hd, hds⟩ := List.forall_mem_cons.mp h
    simp [cut, hd, ih hds]

theorem exists_failed_take_cut {ds : List Scenario} (h : ∃ d ∈ ds, d.status.isFailed = true) :
    ∃ d ∈ ds.take (cut ds), d.status.isFailed = true := by
  induction ds with
  | nil => simp at h
  | cons d ds ih =>
    cases hd : d.status.isFailed with
    | true => exact ⟨d, by simp [cut, hd], hd⟩
    | false =>
      obtain ⟨t, ht, hf⟩ := ih (by simpa [hd] using h)
      exact ⟨t, by simp [cut, hd, ht], hf⟩

section Runs

variable {action : Action σ} {ctx c : Context σ} {before after done : List Scenario}

theorem evaluateUnder_cons_ok {s : Scenario}
    (h : evaluateUnder action ctx false false (s :: before) = (.ok done, c)) :
    ∃ d c₁ ds, exec (s.evaluate action) ctx = (.ok d, c₁) ∧
      evaluateUnder action c₁ false false before = (.ok ds, c) ∧ done = d :: ds := by
  rw [evaluateUnder_cons] at h
  rcases hs : exec (s.evaluate action) ctx with ⟨_ | d, c₁⟩ <;> rw [hs] at h
  · cases h
  · simp only [Bool.or_false, Bool.and_false, Bool.false_eq_true, if_false] at h
    rcases hr : evaluateUnder action c₁ false false before with ⟨_ | ds, c₂⟩ <;> rw [hr] at h
    · cases h
    · cases h
      exact ⟨d, c₁, ds, rfl, hr, rfl⟩

/-- Without a policy a run continues where the run of its first scenarios ended. -/
theorem evaluateUnder_append_ok
    (h : evaluateUnder action ctx false false (before ++ after) = (.ok done, c)) :
    ∃ ds c₁ rest, evaluateUnder action ctx false false before = (.ok ds, c₁) ∧
      evaluateUnder action c₁ false false after = (.ok rest, c) ∧ done = ds ++ rest := by
  induction before generalizing ctx done with
  | nil => exact ⟨[], _, done, rfl, h, rfl⟩
  | cons s before ih =>
    obtain ⟨d, c₁, ds, hs, hr, rfl⟩ := evaluateUnder_cons_ok h
    obtain ⟨es, c₂, rest, hes, hrest, rfl⟩ := ih hr
    refine ⟨d :: es, c₂, rest, ?_, hrest, rfl⟩
    simp [evaluateUnder_cons, hs, hes, Except.map]

/-- A policy stops a run at the first failure that the plain run has. -/
theorem run_of_failed (h : evaluateUnder action ctx false false before = (.ok done, c))
    (hf : ∃ d ∈ done, d.status.isFailed = true) :
    ∃ ck, evaluateUnder action ctx false false (before.take (cut done)) =
        (.ok (done.take (cut done)), ck) ∧
      evaluateUnder action ck false false (before.drop (cut done)) =
        (.ok (done.drop (cut done)), c) ∧
      ∀ f e after, (f || e) = true → evaluateUnder action ctx f e (before ++ after) =
        (.ok (done.take (cut done) ++ withheld e (before.drop (cut done) ++ after)),
          ck.withPolicy f e) := by
  induction before generalizing ctx done with
  | nil =>
    cases h
    simp at hf
  | cons s before ih =>
    obtain ⟨d, c₁, ds, hs, hr, rfl⟩ := evaluateUnder_cons_ok h
    cases hd : d.status.isFailed with
    | true =>
      refine ⟨c₁.withPolicy false false, ?_, ?_, ?_⟩
      · simp [cut, hd, evaluateUnder_cons, hs, Except.map]
      · simpa [cut, hd] using hr
      · intro f e after hp
        simp [cut, hd, evaluateUnder_cons, hs, hp]
    | false =>
      obtain ⟨ck, htake, hdrop, hstop⟩ := ih hr (by simpa [hd] using hf)
      refine ⟨ck, ?_, ?_, ?_⟩
      · simp [cut, hd, evaluateUnder_cons, hs, htake, Except.map]
      · simpa [cut, hd] using hdrop
      · intro f e after hp
        simp [cut, hd, evaluateUnder_cons, hs, hstop f e after hp, Except.map]

theorem length_of_plain (h : evaluateUnder action ctx false false before = (.ok done, c)) :
    done.length = before.length := by
  induction before generalizing ctx done with
  | nil =>
    cases h
    rfl
  | cons s before ih =>
    obtain ⟨d, c₁, ds, hs, hr, rfl⟩ := evaluateUnder_cons_ok h
    rw [List.length_cons, List.length_cons, ih hr]

/-- While nothing has failed, the policies change nothing. -/
theorem run_of_not_failed (ss : List Scenario)
    (h : ∀ before after done c, ss = before ++ after →
      evaluateUnder action ctx false false before = (.ok done, c) →
      ∀ d ∈ done, d.status.isFailed = false) (f e : Bool) :
    evaluateUnder action ctx f e ss = ((evaluateUnder action ctx false false ss).1,
      (evaluateUnder action ctx false false ss).2.withPolicy f e) := by
  induction ss generalizing ctx with
  | nil => rfl
  | cons s ss ih =>
    rw [evaluateUnder_cons, evaluateUnder_cons]
    rcases hs : exec (s.evaluate action) ctx with ⟨_ | d, c₁⟩
    · rfl
    have hd : d.status.isFailed = false := by
      refine h [s] ss [d] (c₁.withPolicy false false) rfl ?_ d (List.mem_singleton_self d)
      simp [evaluateUnder_cons, hs, Except.map]
    have hrest : evaluateUnder action c₁ f e ss = ((evaluateUnder action c₁ false false ss).1,
        (evaluateUnder action c₁ false false ss).2.withPolicy f e) := by
      refine ih fun before after done c hss hb t ht => ?_
      refine h (s :: before) after (d :: done) c (by rw [hss]; rfl) ?_ t (List.mem_cons_of_mem d ht)
      simp [evaluateUnder_cons, hs, hb, Except.map]
    simp only [hd, Bool.false_and, Bool.false_eq_true, if_false, hrest]

/-- The results of every run begin with those of the plain run up to its first failure. -/
theorem prefix_of_failed {ss results : List Scenario} {c' : Context σ} {f e : Bool}
    (h : evaluateUnder action ctx false false before = (.ok done, c))
    (hf : ∃ d ∈ done, d.status.isFailed = true) (hss : ss = before ++ after)
    (hr : evaluateUnder action ctx f e ss = (.ok results, c')) :
    ∃ rest, results = done.take (cut done) ++ rest := by
  cases hp : f || e with
  | true =>
    obtain ⟨_, _, _, hstop⟩ := run_of_failed h hf
    rw [hss, hstop f e after hp] at hr
    cases hr
    exact ⟨_, rfl⟩
  | false =>
    obtain ⟨rfl, rfl⟩ : f = false ∧ e = false := by simpa using hp
    obtain ⟨ds, c₁, rest, hb, -, rfl⟩ := evaluateUnder_append_ok (hss ▸ hr)
    rw [h] at hb
    cases hb
    exact ⟨done.drop (cut done) ++ rest, by rw [← List.append_assoc, List.take_append_drop]⟩

end Runs

/-- Under either policy the run of `ss` stops after the results `done`, where the plain run is in
the context `c`. -/
structure StopsAfter (action : Action σ) (ctx : Context σ) (ss done : List Scenario)
    (c : Context σ) : Prop where
  plain : evaluateUnder action ctx false false (ss.take done.length) = (.ok done, c)
  exit : ∀ failFast, evaluateUnder action ctx failFast true ss =
    (.ok done, c.withPolicy failFast true)
  skip : evaluateUnder action ctx true false ss =
    (.ok (done ++ (ss.drop done.length).map (·.marked .skipped)), c.withPolicy true false)

section Stops

variable {action : Action σ} {ctx c : Context σ} {ss before after done results : List Scenario}

theorem stopsAfter_of_failed (h : evaluateUnder action ctx false false before = (.ok done, c))
    (hf : ∃ d ∈ done, d.status.isFailed = true) :
    ∃ ck, StopsAfter action ctx (before ++ after) (done.take (cut done)) ck ∧
      evaluateUnder action ck false false (before.drop (cut done)) =
        (.ok (done.drop (cut done)), c) := by
  obtain ⟨ck, htake, hdrop, hstop⟩ := run_of_failed h hf
  have hle := cut_le_length done
  have hlen : (done.take (cut done)).length = cut done := List.length_take_of_le hle
  rw [length_of_plain h] at hle
  refine ⟨ck, ⟨?_, fun failFast => ?_, ?_⟩, hdrop⟩
  · rwa [hlen, List.take_append_of_le_length hle]
  · simp [hstop failFast true after (by simp), withheld]
  · rw [hlen, List.drop_append_of_le_length hle]
    exact hstop true false after rfl

theorem stopsAfter_of_ok (h : evaluateUnder action ctx false false ss = (.ok results, c)) :
    ∃ ck, StopsAfter action ctx ss (results.take (cut results)) ck ∧
      evaluateUnder action ck false false (ss.drop (cut results)) =
        (.ok (results.drop (cut results)), c) := by
  by_cases hf : ∃ d ∈ results, d.status.isFailed = true
  · have hstops : ∃ ck, StopsAfter action ctx (ss ++ []) _ ck ∧ _ := stopsAfter_of_failed h hf
    rwa [List.append_nil] at hstops
  · have hn : ∀ d ∈ results, d.status.isFailed = false := by simpa using hf
    have hsame : ∀ f e, evaluateUnder action ctx f e ss = (.ok results, c.withPolicy f e) := by
      intro f e
      rw [run_of_not_failed ss ?_ f e, h]
      intro before after done c₁ hss hb d hd
      obtain ⟨ds, c₂, rest, hb', -, rfl⟩ := evaluateUnder_append_ok (hss ▸ h)
      rw [hb] at hb'
      cases hb'
      exact hn d (List.mem_append_left rest hd)
    have hlen := length_of_plain h
    rw [cut_of_not_failed hn, List.take_length, List.drop_length, hlen, List.drop_length]
    refine ⟨c, ⟨?_, fun failFast => hsame failFast true, ?_⟩, ?_⟩
    · rwa [hlen, List.take_length]
    · rw [hsame, hlen, List.drop_length]
      simp
    · exact Prod.ext rfl (congrArg Prod.snd (h.symm.trans (hsame false false))).symm

end Stops

/-- Both policies are exact truncations of the run without them: the results up to the first failure
stand, and the context is the one that the run without policies had there, whatever it comes to
later. No policy changes the verdict. -/
theorem policies_truncate (action : Action σ) (ctx : Context σ) (ss : List Scenario) :
    (∀ results c, evaluateUnder action ctx false false ss = (.ok results, c) →
      ∃ ck, StopsAfter action ctx ss (results.take (cut results)) ck ∧
        evaluateUnder action ck false false (ss.drop (cut results)) =
          (.ok (results.drop (cut results)), c)) ∧
    (∀ before after done c, ss = before ++ after →
      evaluateUnder action ctx false false before = (.ok done, c) →
      (∃ d ∈ done, d.status.isFailed = true) →
      ∃ ck, StopsAfter action ctx ss (done.take (cut done)) ck) ∧
    (∀ fault c, evaluateUnder action ctx false false ss = (.error fault, c) →
      (∀ before after done c', ss = before ++ after →
        evaluateUnder action ctx false false before = (.ok done, c') →
        ∀ d ∈ done, d.status.isFailed = false) →
      ∀ failFast exitOnFail, evaluateUnder action ctx failFast exitOnFail ss =
        (.error fault, c.withPolicy failFast exitOnFail)) ∧
    (∀ f e f' e' results results' c c', evaluateUnder action ctx f e ss = (.ok results, c) →
      evaluateUnder action ctx f' e' ss = (.ok results', c') →
      Status.SameVerdict (.fold (results.map (·.status))) (.fold (results'.map (·.status)))) := by
  refine ⟨fun _ _ h => stopsAfter_of_ok h, ?_, ?_, ?_⟩
  · rintro before after done c rfl h hf
    obtain ⟨ck, hstops, _⟩ := stopsAfter_of_failed h hf
    exact ⟨ck, hstops⟩
  · intro fault c h hn f e
    rw [run_of_not_failed ss hn, h]
  · intro f e f' e' results results' c c' h h'
    by_cases hb : ∃ before after done c₀, ss = before ++ after ∧
        evaluateUnder action ctx false false before = (.ok done, c₀) ∧
        ∃ d ∈ done, d.status.isFailed = true
    · obtain ⟨before, after, done, c₀, hss, hplain, hf⟩ := hb
      obtain ⟨rest, rfl⟩ := prefix_of_failed hplain hf hss h
      obtain ⟨rest', rfl⟩ := prefix_of_failed hplain hf hss h'
      obtain ⟨d, hd, hfd⟩ := exists_failed_take_cut hf
      rw [List.map_append, List.map_append]
      exact .fold_append ⟨_, List.mem_map_of_mem hd, hfd⟩
    · have hn : ∀ before after done c₀, ss = before ++ after →
          evaluateUnder action ctx false false before = (.ok done, c₀) →
          ∀ d ∈ done, d.status.isFailed = false := by
        intro before after done c₀ hss hplain d hd
        exact Bool.eq_false_iff.mpr fun hfd => hb ⟨before, after, done, c₀, hss, hplain, d, hd, hfd⟩
      rw [run_of_not_failed ss hn] at h h'
      have hsame : (Except.ok results : Except EvalError _) = .ok results' :=
        (congrArg Prod.fst h).symm.trans (congrArg Prod.fst h')
      cases hsame
      exact .refl _

/-- A failure, and behind it a step definition and a call of it. -/
def errands : List Scenario := [
  { name := "Ada", steps := [{ keyword := .given, expression := "basket is \"empty\"" }] },
  { name := "Bob", steps := [{ keyword := .then, expression := "basket should be \"full\"" }] },
  { name := "I pay", tags := [.stepDef], steps := [
    { keyword := .given, expression := "purse is \"empty\"" }] },
  { name := "Cyd", steps := [{ keyword := .when, expression := "I pay" }] }]

/-- A step definition that cannot be registered, since its name begins with a keyword. -/
def unfit : Scenario := { name := "Given up", tags := [.stepDef] }

theorem policies_truncate_errands :
    let ctx : Context Unit := { state := () }
    ∃ results c ck, evaluateUnder .builtin ctx false false errands = (.ok results, c) ∧
      results.map (·.status.keyword) = ["Passed", "Failed", "Loaded", "Passed"] ∧
      c.registry.names = ["I pay"] ∧
      StopsAfter .builtin ctx errands (results.take 2) ck ∧ ck.registry.names = [] ∧
      Status.SameVerdict (.fold (results.map (·.status)))
        (.fold ((results.take 2).map (·.status))) ∧
      (evaluateUnder .builtin ctx false false (errands ++ [unfit])).1.toOption.isNone = true ∧
      ∃ ck, StopsAfter .builtin ctx (errands ++ [unfit]) (results.take 2) ck := by
  intro ctx
  have hplain : (evaluateUnder .builtin ctx false false errands).1.toOption.map
      (fun results => (cut results, results.map (·.status.keyword),
        results.any (·.status.isFailed))) =
        some (2, ["Passed", "Failed", "Loaded", "Passed"], true) := by
    decide +kernel
  have hnames : (evaluateUnder .builtin ctx false false errands).2.registry.names = ["I pay"] := by
    decide +kernel
  have hstopped : (evaluateUnder .builtin ctx true true errands).2.registry.names = [] := by
    decide +kernel
  have hunfit :
      (evaluateUnder .builtin ctx false false (errands ++ [unfit])).1.toOption.isNone = true := by
    decide +kernel
  obtain ⟨results, hresults, hcut⟩ := Outcome.toOption_map_eq_some.mp hplain
  simp only [Prod.mk.injEq] at hcut
  obtain ⟨hcut, hkeywords, hany⟩ := hcut
  have hok : evaluateUnder .builtin ctx false false errands = (.ok results, _) :=
    Prod.ext hresults rfl
  obtain ⟨htruncated, -, -, hverdict⟩ := policies_truncate .builtin ctx errands
  obtain ⟨ck, hstops, -⟩ := htruncated results _ hok
  rw [hcut] at hstops
  refine ⟨results, _, ck, hok, hkeywords, hnames, hstops, ?_,
    hverdict _ _ _ _ _ _ _ _ hok (hstops.exit true), hunfit, ?_⟩
  · rw [hstops.exit true] at hstopped
    exact hstopped
  · obtain ⟨-, hfailed, -⟩ := policies_truncate .builtin ctx (errands ++ [unfit])
    obtain ⟨ck, hstops⟩ := hfailed errands [unfit] results _ rfl hok (List.any_eq_true.mp hany)
    rw [hcut] at hstops
    exact ⟨ck, hstops⟩

end Gherkin
