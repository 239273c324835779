import Gherkin.Proofs.AttachmentNames
import Gherkin.Proofs.ParallelRuns

/-! The directories in which the jobs of a run leave their attachments. Jobs are numbered by their
places in the schedule, and the directory of a job has its number, so no two jobs write to one
file, whichever features they evaluate and whatever else writes to the files meanwhile. -/
namespace Gherkin

namespace Job

variable {root : Path} {job job' : Job} {x y : String}

/-- The directory of a job is named by its number, which counts from one. -/
theorem directory_eq (root : Path) (job : Job) :
    ∃ stem : String, '/' ∉ stem.toList ∧
      job.directory root = root.join (Path.numbered 3 (job.index + 1) stem) := by
  refine ⟨job.feature.fileStem?.getD "feature", ?_, rfl⟩
  cases hstem : job.feature.fileStem? with
  | none => decide
  | some stem => exact Path.unbroken_of_fileStem? hstem

/-- What lies in the directories of two jobs lies under different paths. -/
theorem not_same_of_index_ne (h : job.index ≠ job'.index) (hx : Path.IsName x)
    (hy : Path.IsName y) :
    ((job.directory root).join x).same ((job'.directory root).join y) = false := by
  obtain ⟨stem, hstem, hdir⟩ := directory_eq root job
  obtain ⟨stem', hstem', hdir'⟩ := directory_eq root job'
  refine Bool.eq_false_iff.mpr fun hsame => h ?_
  have hcomponents := (Path.same_iff.mp hsame).2
  rw [(hx.join _).2, (hy.join _).2, hdir, hdir', ((Path.isName_numbered hstem 3 _).join root).2,
    ((Path.isName_numbered hstem' 3 _).join root).2] at hcomponents
  have hdirs := List.append_inj_left' hcomponents rfl
  have hnames := List.append_cancel_left hdirs
  exact Nat.succ_inj.mp (Path.number_unique (List.singleton_injective hnames))

end Job

namespace Run

variable {α β : Type} {features : List Path} {records : List (Option Record)} {f r : Nat}
  {feature : Path} {record : Option Record}

theorem getElem?_pairs (hf : features[f]? = some feature) (hr : records[r]? = some record) :
    (features.flatMap fun feature => records.map fun record => (feature, record))[
      f * records.length + r]? = some (feature, record) := by
  have hlt : r < records.length := (List.getElem?_eq_some_iff.mp hr).1
  induction features generalizing f with
  | nil => cases hf
  | cons first features ih =>
    rw [List.flatMap_cons]
    cases f with
    | zero =>
      cases hf
      rw [List.getElem?_append_left (by simpa using hlt)]
      simp [hr]
    | succ f =>
      have hplace : (f + 1) * records.length + r - (records.map fun record =>
          (first, record)).length = f * records.length + r := by
        rw [List.length_map, Nat.succ_mul]
        omega
      rw [List.getElem?_append_right (by rw [List.length_map, Nat.succ_mul]; omega), hplace]
      exact ih hf

theorem length_schedule (features : List Path) (records : List (Option Record)) :
    (schedule features records).length = features.length * records.length := by
  simp [schedule, List.length_flatMap]

/-- The records of one feature stand together, and each job knows its place. -/
theorem getElem?_schedule (hf : features[f]? = some feature) (hr : records[r]? = some record) :
    (schedule features records)[f * records.length + r]? =
      some { index := f * records.length + r, feature, record } := by
  rw [schedule, List.getElem?_map, List.getElem?_zipIdx, getElem?_pairs hf hr]
  simp

theorem index_of_schedule {i : Nat} {job : Job} (h : (schedule features records)[i]? = some job) :
    job.index = i := by
  rw [schedule, List.getElem?_map, List.getElem?_zipIdx] at h
  simp only [Option.map_map, Option.map_eq_some_iff] at h
  obtain ⟨pair, -, rfl⟩ := h
  simp

end Run

namespace AttachmentStore

variable {s t u : AttachmentStore} {dir : Path} {rs : List Request} {x : String} {a : Attachment}

/-- Plain requests lead from one store to the other. -/
def LeadsTo (s t : AttachmentStore) : Prop := ∃ rs, (∀ r ∈ rs, r.Plain) ∧ t = s.after rs

theorem LeadsTo.refl (s : AttachmentStore) : s.LeadsTo s := ⟨[], by simp, rfl⟩

theorem LeadsTo.trans (h : s.LeadsTo t) (h' : t.LeadsTo u) : s.LeadsTo u := by
  obtain ⟨rs, hrs, rfl⟩ := h
  obtain ⟨rs', hrs', rfl⟩ := h'
  exact ⟨rs ++ rs', List.forall_mem_append.mpr ⟨hrs, hrs'⟩, (after_append s rs rs').symm⟩

/-- A failure makes two requests. -/
theorem leadsTo_attached {σ : Type} (ctx : Context σ) (cause : String) :
    ctx.store.LeadsTo (ctx.attached cause).store := by
  let details : Request := { name := "Error details", extension := "txt",
                             content := cause.toUTF8, files := ctx.store.files }
  let picture : Request := { name := "Environment", extension := "json",
                             content := ctx.scopes.snapshot.pretty.toUTF8,
                             files := (ctx.store.serve details).2.files }
  refine ⟨[details, picture], ?_, ?_⟩
  · have htext : '/' ∉ "txt".toList := by decide
    have hjson : '/' ∉ "json".toList := by decide
    exact List.forall_mem_cons.mpr ⟨htext, List.forall_mem_cons.mpr ⟨hjson, by simp⟩⟩
  · simp only [Context.attached, Step.attachFailure, EvalM.exec_get_bind, EvalM.exec_set_bind,
      EvalM.exec_pure, after, List.foldl_cons, List.foldl_nil, serve, details, picture]

/-- An evaluation does nothing to the store but make requests, and if it ends in an error it has
made them nevertheless. -/
theorem store_requests_frame {σ : Type} (action : Action σ) :
    FeatureFrame action fun ctx c => ctx.store.LeadsTo c.store where
  refl ctx := .refl ctx.store
  trans := .trans
  unbound _ _ := .refl _
  attached := leadsTo_attached
  acted _ _ := .refl _
  tabled _ h := h
  called _ _ h := h
  registered _ := .refl _
  loaded _ _ := .refl _

/-- Every attachment was written under a name that was given. -/
theorem exists_given_of_written (hd : s.dir = some dir) (hp : ∀ r ∈ rs, r.Plain)
    (ha : a ∈ s.written rs) : ∃ x, Path.IsName x ∧ a.file = dir.join x := by
  have hfile := (written_sublist hd rs).subset (List.mem_map_of_mem (f := (·.file)) ha)
  obtain ⟨x, hx, hjoin⟩ := List.mem_map.mp hfile
  exact ⟨x, isName_of_given hd hp hx, hjoin.symm⟩

end AttachmentStore

namespace Job

open AttachmentStore RunM

variable {setup : Setup} {root : Path} {files : FileSystem} {job job' : Job}
  {result : Feature.Result}

/-- The store in which a job begins. -/
def opened (setup : Setup) (files : FileSystem) (job : Job) : AttachmentStore :=
  { dir := setup.attachments.map (directory · job), files }

/-- The store that the evaluation of a job leaves, whether it comes to a result or not. -/
def closed (setup : Setup) (files : FileSystem) (job : Job) : AttachmentStore :=
  match Feature.load files job.feature with
  | .error _ => job.opened setup files
  | .ok feature =>
    (EvalM.exec (feature.run Action.builtin files job.record)
      { settings := setup.settings, options := setup.options, store := job.opened setup files,
        state := () }).2.store

theorem leadsTo_closed (setup : Setup) (files : FileSystem) (job : Job) :
    (job.opened setup files).LeadsTo (job.closed setup files) := by
  unfold closed
  split
  · exact .refl _
  · exact (store_requests_frame Action.builtin).run files _ job.record _

theorem attachments_of_run {σ : Type} {action : Action σ} {f : Feature} {record : Option Record}
    {ctx c : Context σ} (h : EvalM.exec (f.run action files record) ctx = (.ok result, c)) :
    result.attachments = c.store.list := by
  rw [Feature.run, EvalM.exec_get_bind] at h
  split at h
  · cases h
  · obtain ⟨metas, c₁, scenarios, c₂, -, -, rfl, rfl⟩ := Feature.evaluate_ends h
    unfold Feature.concluded
    split <;> rfl

/-- A job that comes to a result has the attachments in its store. -/
theorem attachments_of_evaluate (h : (exec (job.evaluate setup) files).1 = .ok result) :
    result.attachments = (job.closed setup files).list := by
  rw [Run.exec_evaluate] at h
  unfold closed
  cases hload : Feature.load files job.feature with
  | error fault =>
    rw [hload] at h
    cases h
  | ok feature =>
    rw [hload] at h
    dsimp only [opened] at h ⊢
    rcases hrun : EvalM.exec (feature.run Action.builtin files job.record) _ with ⟨_ | r, c⟩
    · rw [hrun] at h
      cases h
    · rw [hrun] at h
      cases h
      exact attachments_of_run hrun

/-- What two jobs of a run write lies under different paths. -/
theorem attachments_apart (h : job.index ≠ job'.index) {s t : AttachmentStore}
    (hs : s.dir = some (job.directory root)) (ht : t.dir = some (job'.directory root))
    {rs ts : List Request} (hrs : ∀ r ∈ rs, r.Plain) (hts : ∀ r ∈ ts, r.Plain) :
    ∀ a ∈ s.written rs, ∀ b ∈ t.written ts, a.file.same b.file = false := by
  intro a ha b hb
  obtain ⟨x, hx, hfile⟩ := exists_given_of_written hs hrs ha
  obtain ⟨y, hy, hfile'⟩ := exists_given_of_written ht hts hb
  rw [hfile, hfile']
  exact not_same_of_index_ne h hx hy

theorem exists_written_of_closed (hroot : setup.attachments = some root) (files : FileSystem)
    (job : Job) : (job.opened setup files).dir = some (job.directory root) ∧
      ∃ rs, (∀ r ∈ rs, r.Plain) ∧
        (job.closed setup files).entries = (job.opened setup files).written rs := by
  have hdir : (job.opened setup files).dir = some (job.directory root) := by
    rw [opened, hroot, Option.map_some]
  obtain ⟨rs, hrs, hclosed⟩ := leadsTo_closed setup files job
  refine ⟨hdir, rs, hrs, ?_⟩
  rw [hclosed, entries_after hdir]
  exact List.nil_append _

end Job

namespace Run

open AttachmentStore RunM

variable {setup : Setup} {root : Path}

/-- A store gives requests names in its directory, each a name of its own as long as there are
numbers for all of them, and lists what was written in the order of the names, which is the order of
the requests while the numbers have four digits. In a run each job knows its place in the schedule,
and no two jobs write to the same path: not in any history of their directories, and not when they
are evaluated. -/
theorem attachments_never_collide (hroot : setup.attachments = some root) (features : List Path)
    (records : List (Option Record)) :
    (∀ (dir : Path) (rs : List Request), (∀ r ∈ rs, r.Plain) →
      let store : AttachmentStore := { dir := some dir }
      (∀ x ∈ store.namesGiven rs, dir.LiesIn (dir.join x) x) ∧
      (store.namesGiven rs).length ≤ rs.length ∧
      ((store.written rs).map (·.file)).Sublist ((store.namesGiven rs).map dir.join) ∧
      (store.after rs).list.Perm (store.written rs) ∧
      ((store.after rs).list.Pairwise fun a b => ¬ NamedBefore b a) ∧
      (store.HasRoom (store.namesGiven rs).length →
        (store.after rs).used.toNat = (store.namesGiven rs).length ∧
        (store.namesGiven rs).Nodup ∧ (store.after rs).list.Pairwise NamedBefore) ∧
      ((store.namesGiven rs).length ≤ 9999 → (store.after rs).list = store.written rs)) ∧
    ((schedule features records).length = features.length * records.length ∧
      ∀ f r feature record, features[f]? = some feature → records[r]? = some record →
        (schedule features records)[f * records.length + r]? =
          some { index := f * records.length + r, feature, record }) ∧
    (∀ (i j : Nat) (job job' : Job), (schedule features records)[i]? = some job →
      (schedule features records)[j]? = some job' → i ≠ j →
      (∀ rs rs' : List Request, (∀ r ∈ rs, r.Plain) → (∀ r ∈ rs', r.Plain) →
        ∀ a ∈ written { dir := some (job.directory root) } rs,
        ∀ b ∈ written { dir := some (job'.directory root) } rs', a.file.same b.file = false) ∧
      ∀ files files' : FileSystem, ∀ a ∈ (job.closed setup files).entries,
        ∀ b ∈ (job'.closed setup files').entries, a.file.same b.file = false) ∧
    ∀ (job : Job) files result, (exec (job.evaluate setup) files).1 = .ok result →
      result.attachments.Perm (job.closed setup files).entries := by
  refine ⟨fun dir rs hrs => ?_, ⟨length_schedule features records, fun f r feature record hf hr =>
    getElem?_schedule hf hr⟩, fun i j job job' hi hj hij => ?_, fun job files result h => ?_⟩
  · intro store
    have hdir : store.dir = some dir := rfl
    have hunused : store.used.toNat = 0 := rfl
    obtain ⟨hperm, hordered⟩ := list_after hdir rfl rs
    refine ⟨fun x hx => (isName_of_given hdir hrs hx).liesIn dir, length_namesGiven_le hdir rs,
      written_sublist hdir rs, hperm, hordered, fun hroom => ?_, fun hfew => ?_⟩
    · refine ⟨?_, nodup_namesGiven hdir hroom, pairwise_list_after hdir rfl hrs hroom⟩
      rw [toNat_used_after hdir, hroom.number_eq (Nat.le_refl _), hunused, Nat.zero_add]
    · exact list_eq_written hdir rfl hrs (by rwa [hunused, Nat.zero_add])
  · have hindex : job.index ≠ job'.index := by
      rwa [index_of_schedule hi, index_of_schedule hj]
    refine ⟨fun rs rs' hrs hrs' => Job.attachments_apart hindex rfl rfl hrs hrs',
      fun files files' => ?_⟩
    obtain ⟨hdir, rs, hrs, hentries⟩ := Job.exists_written_of_closed hroot files job
    obtain ⟨hdir', rs', hrs', hentries'⟩ := Job.exists_written_of_closed hroot files' job'
    rw [hentries, hentries']
    exact Job.attachments_apart hindex hdir hdir' hrs hrs'
  · rw [Job.attachments_of_evaluate h]
    exact (list_sorted _).1

/-- Two requests with one stem, and between them one that cannot be written. -/
def clashing : List Request :=
  [{ name := "Error details", extension := "txt", content := .empty, files := {} },
    { name := "cut", extension := "\x00", content := .empty, files := {} },
    { name := "error-details", extension := "txt", content := .empty, files := {} }]

/-- One feature, which fails, twice. -/
def twice : List Job :=
  [{ index := 0, feature := "/knock.feature", record := none },
    { index := 1, feature := "/knock.feature", record := none }]

theorem attachments_never_collide_twice :
    (∀ r ∈ clashing, r.Plain) ∧ namesGiven { dir := some "out" } clashing =
      ["0001-error-details.txt", "0002-cut.\x00", "0003-error-details.txt"] ∧
    (namesGiven { dir := some "out" } clashing).Nodup ∧
    (after { dir := some "out" } clashing).list.map (·.file) =
      ["out/0001-error-details.txt", "out/0003-error-details.txt"] ∧
    schedule ["/knock.feature", "/knock.feature"] [none] = twice ∧
    twice.map (fun job =>
      (job.closed { attachments := some "out" } doorFiles).entries.map (·.file)) =
      [["out/001-knock/0001-error-details.txt", "out/001-knock/0002-environment.json"],
        ["out/002-knock/0001-error-details.txt", "out/002-knock/0002-environment.json"]] ∧
    twice.Pairwise fun job job' =>
      ∀ a ∈ (job.closed { attachments := some "out" } doorFiles).entries,
        ∀ b ∈ (job'.closed { attachments := some "out" } doorFiles).entries,
          a.file.same b.file = false := by
  have hplain : ∀ r ∈ clashing, r.Plain := by
    simp only [clashing, Request.Plain]
    decide
  have hnames : namesGiven { dir := some "out" } clashing =
      ["0001-error-details.txt", "0002-cut.\x00", "0003-error-details.txt"] := by
    decide +kernel
  have hwritten : (written { dir := some "out" } clashing).map (·.file) =
      ["out/0001-error-details.txt", "out/0003-error-details.txt"] := by
    decide +kernel
  have hroot : ({ attachments := some "out" } : Setup).attachments = some "out" := rfl
  obtain ⟨hstore, -, hjobs, -⟩ :=
    attachments_never_collide hroot ["/knock.feature", "/knock.feature"] [none]
  obtain ⟨-, -, -, -, -, hnumbers, hlist⟩ := hstore "out" clashing hplain
  have hroom : HasRoom { dir := some "out" } (namesGiven { dir := some "out" } clashing).length := by
    rw [hnames]
    decide
  have hfew : (namesGiven { dir := some "out" } clashing).length ≤ 9999 := by
    rw [hnames]
    decide
  refine ⟨hplain, hnames, (hnumbers hroom).2.1, by rw [hlist hfew, hwritten], rfl,
    by decide +kernel, ?_⟩
  have hapart := (hjobs 0 1 _ _ rfl rfl (by decide)).2 doorFiles doorFiles
  simpa [twice] using hapart

end Run

end Gherkin
