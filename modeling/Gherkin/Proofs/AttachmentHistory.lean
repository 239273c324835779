import Gherkin.Proofs.WritableDirectory
import Mathlib.Data.List.Forall2

/-! What is written to a store of attachments, and by which of the steps of an evaluation. Each
failure is given the next two numbers, so the numbers tell how many failures went before. -/
namespace Gherkin

mutual

/-- The step and all steps evaluated for it, in the order in which they were begun. -/
def Step.tree : Step → List Step
  | ⟨keyword, expression, pos, table, status, attachments, body⟩ =>
    ⟨keyword, expression, pos, table, status, attachments, body⟩ :: Scenario.bodyTree body

def Scenario.bodyTree : Option Scenario → List Step
  | none => []
  | some s => s.tree

def Step.listTree : List Step → List Step
  | [] => []
  | s :: ss => s.tree ++ Step.listTree ss

def Background.tree : Background → List Step
  | ⟨_, _, steps⟩ => Step.listTree steps

def Background.optionTree : Option Background → List Step
  | none => []
  | some b => b.tree

/-- All steps evaluated for a scenario. -/
def Scenario.tree : Scenario → List Step
  | ⟨_, _, _, background, steps, _, _, _, _⟩ =>
    Background.optionTree background ++ Step.listTree steps

end

theorem Step.listTree_eq (ss : List Step) : Step.listTree ss = ss.flatMap Step.tree := by
  induction ss with
  | nil => rfl
  | cons s ss ih => rw [Step.listTree, ih, List.flatMap_cons]

theorem Step.tree_eq (s : Step) : s.tree = s :: s.body.elim [] Scenario.tree := by
  rcases s with ⟨_, _, _, _, _, _, _ | body⟩ <;> rfl

theorem Scenario.tree_eq (s : Scenario) : s.tree = s.allSteps.flatMap Step.tree := by
  rcases s with ⟨_, _, _, _ | b, steps, _, _, _, _⟩
  · rw [Scenario.tree, Step.listTree_eq]
    rfl
  · rcases b with ⟨_, _, bs⟩
    rw [Scenario.tree, Step.listTree_eq, allSteps, List.flatMap_append]
    congr 1
    exact Step.listTree_eq bs

namespace Step

/-- The step failed, and not because of a step definition that it called. -/
def failedDirectly (s : Step) : Bool := s.status.isFailed && s.body.isNone

/-- The steps that failed directly, in the order of their failures. -/
def failures (ss : List Step) : List Step := ss.filter (·.failedDirectly)

/-- The step neither failed by itself nor has attachments. -/
def Quiet (s : Step) : Prop := s.failedDirectly = false ∧ s.attachments = []

theorem failures_append (ss ts : List Step) : failures (ss ++ ts) = failures ss ++ failures ts :=
  List.filter_append ..

theorem failures_of_quiet {ss : List Step} (h : ∀ s ∈ ss, s.Quiet) : failures ss = [] :=
  List.filter_eq_nil_iff.mpr fun s hs => by simp [(h s hs).1]

end Step

namespace AttachmentStore

variable {s s' t u : AttachmentStore} {dir : Path} {ss ts : List Step} {step : Step}

/-- As long as there is room the numbers do not begin again. -/
theorem HasRoom.toNat_used_add_one {n : Nat} (h : s.HasRoom (n + 1)) :
    (s.used + 1).toNat = s.used.toNat + 1 := by
  have hlt : s.used.toNat + 1 < UInt32.size := by
    unfold HasRoom at h
    omega
  rw [UInt32.toNat_add]
  exact Nat.mod_eq_of_lt hlt

theorem HasRoom.of_used_eq {n : Nat} (h : s.HasRoom (n + 1)) (hu : t.used = s.used + 1) :
    t.HasRoom n := by
  rw [HasRoom, hu, h.toNat_used_add_one]
  unfold HasRoom at h
  omega

/-- The two files of a failure, where both can be written. -/
def failure (s : AttachmentStore) (details picture : ByteArray) :
    List Attachment × AttachmentStore :=
  let (details, s) := s.attach "Error details" "txt" details
  let (picture, s) := s.attach "Environment" "json" picture
  ([details, picture].filterMap fun
    | .written a => some a
    | _ => none, s)

/-- The attachments of the failure before which `rank` others went. -/
def filed (dir : Path) (rank : Nat) : List Attachment :=
  [{ name := "Error details", file := dir.join (fileName (2 * rank + 1) "Error details" "txt") },
    { name := "Environment", file := dir.join (fileName (2 * rank + 2) "Environment" "json") }]

/-- The files of `n` failures can be written, whatever is in them. -/
def Takes : Nat → AttachmentStore → Prop
  | 0, _ => True
  | n + 1, s => ∀ details picture, ∃ a b m t,
    s.attach "Error details" "txt" details = (.written a, m) ∧
      m.attach "Environment" "json" picture = (.written b, t) ∧ Takes n t

theorem attach_written {name extension : String} {content : ByteArray} {a : Attachment}
    (hd : s.dir = some dir) (h : s.attach name extension content = (.written a, s')) :
    a = { name, file := dir.join (fileName (s.used + 1).toNat name extension) } ∧
      s'.dir = some dir ∧ s'.used = s.used + 1 ∧ s'.entries = s.entries ++ [a] := by
  unfold attach at h
  rw [hd] at h
  dsimp only at h
  split at h
  · cases h
  · split at h <;> cases h
    exact ⟨rfl, rfl, rfl, rfl⟩

theorem failure_of_takes {n room rank : Nat} (h : s.Takes (n + 1)) (hd : s.dir = some dir)
    (hroom : s.HasRoom (room + 2)) (hu : s.used.toNat = 2 * rank) (details picture : ByteArray) :
    (s.failure details picture).1 = filed dir rank ∧
      (s.failure details picture).2.dir = some dir ∧
      (s.failure details picture).2.HasRoom room ∧
      (s.failure details picture).2.used.toNat = 2 * (rank + 1) ∧
      (s.failure details picture).2.entries = s.entries ++ filed dir rank ∧
      (s.failure details picture).2.Takes n := by
  obtain ⟨a, b, m, t, ha, hb, ht⟩ := h details picture
  obtain ⟨rfl, hmd, hmu, hme⟩ := attach_written hd ha
  obtain ⟨rfl, htd, htu, hte⟩ := attach_written hmd hb
  have hmroom : m.HasRoom (room + 1) := hroom.of_used_eq hmu
  have hfirst : (s.used + 1).toNat = 2 * rank + 1 := by rw [hroom.toNat_used_add_one, hu]
  have hsecond : (m.used + 1).toNat = 2 * rank + 2 := by
    rw [hmroom.toNat_used_add_one, hmu, hfirst]
  rw [hfirst] at ha hme
  rw [hsecond] at hb hte
  have hfailure : s.failure details picture = (filed dir rank, t) := by
    simp only [failure, ha, hb]
    rfl
  rw [hfailure]
  refine ⟨rfl, htd, hmroom.of_used_eq htu, by rw [htu, hsecond]; rfl, ?_, ht⟩
  rw [hte, hme, List.append_assoc]
  rfl

/-- Evaluating the steps leads from one store to the other: each that failed directly left the
attachments it has, and no other has any. -/
inductive Records : AttachmentStore → List Step → AttachmentStore → Prop
  | nil (s : AttachmentStore) : Records s [] s
  | quiet {s s' : AttachmentStore} {step : Step} {ss : List Step} (hq : step.Quiet)
      (h : Records s ss s') : Records s (step :: ss) s'
  | failed {s s' : AttachmentStore} {step : Step} {ss : List Step} (details picture : ByteArray)
      (hf : step.failedDirectly = true) (ha : step.attachments = (s.failure details picture).1)
      (h : Records (s.failure details picture).2 ss s') : Records s (step :: ss) s'

theorem records_of_quiet (h : ∀ step ∈ ss, step.Quiet) : Records s ss s := by
  induction ss with
  | nil => exact .nil s
  | cons step ss ih =>
    obtain ⟨hstep, h⟩ := List.forall_mem_cons.mp h
    exact .quiet hstep (ih h)

theorem Records.append (h₁ : Records s ss t) (h₂ : Records t ts u) : Records s (ss ++ ts) u := by
  induction h₁ with
  | nil => exact h₂
  | quiet hq _ ih => exact .quiet hq (ih h₂)
  | failed details picture hf ha _ ih => exact .failed details picture hf ha (ih h₂)

theorem Records.eq_of_no_failures (h : Records s ss t) (hn : Step.failures ss = []) :
    t = s ∧ ∀ step ∈ ss, step.attachments = [] := by
  induction h with
  | nil => exact ⟨rfl, by simp⟩
  | quiet hq _ ih =>
    rw [Step.failures, List.filter_cons_of_neg (by simp [hq.1])] at hn
    obtain ⟨rfl, h⟩ := ih hn
    exact ⟨rfl, List.forall_mem_cons.mpr ⟨hq.2, h⟩⟩
  | failed _ _ hf => simp [Step.failures, hf] at hn

/-- With room for all failures, each is given the numbers of its rank, and the store lists what the
steps have. -/
theorem Records.numbered {rank n : Nat} (h : Records s ss t) (hd : s.dir = some dir)
    (hroom : s.HasRoom (2 * n)) (hu : s.used.toNat = 2 * rank) (ht : s.Takes n)
    (hn : (Step.failures ss).length ≤ n) :
    (∀ k step, (Step.failures ss)[k]? = some step → step.attachments = filed dir (rank + k)) ∧
      (∀ step ∈ ss, step.failedDirectly = false → step.attachments = []) ∧
      t.entries = s.entries ++ ss.flatMap (·.attachments) := by
  induction h generalizing rank n with
  | nil => simp [Step.failures]
  | @quiet s s' step ss hq _ ih =>
    have hskip : Step.failures (step :: ss) = Step.failures ss :=
      List.filter_cons_of_neg (by simp [hq.1])
    rw [hskip] at hn ⊢
    obtain ⟨hranks, hnone, hentries⟩ := ih hd hroom hu ht hn
    refine ⟨hranks, List.forall_mem_cons.mpr ⟨fun _ => hq.2, hnone⟩, ?_⟩
    rw [hentries, List.flatMap_cons, hq.2, List.nil_append]
  | @failed s s' step ss details picture hf ha _ ih =>
    have hfirst : Step.failures (step :: ss) = step :: Step.failures ss :=
      List.filter_cons_of_pos hf
    rw [hfirst] at hn ⊢
    cases n with
    | zero => exact absurd hn (Nat.not_succ_le_zero _)
    | succ n =>
      have hroom : s.HasRoom (2 * n + 2) := hroom
      obtain ⟨hfiled, hd', hroom', hu', he', ht'⟩ :=
        failure_of_takes ht hd hroom hu details picture
      obtain ⟨hranks, hnone, hentries⟩ := ih hd' hroom' hu' ht' (Nat.le_of_succ_le_succ hn)
      refine ⟨fun k t hk => ?_, List.forall_mem_cons.mpr ⟨fun hq => ?_, hnone⟩, ?_⟩
      · cases k with
        | zero =>
          cases hk
          exact ha.trans hfiled
        | succ k =>
          rw [hranks k t hk]
          congr 1
          omega
      · rw [hf] at hq
        cases hq
      · rw [hentries, he', List.flatMap_cons, ha, hfiled, List.append_assoc]

theorem nameLe_trans {a b c : Option String} (h₁ : nameLe a b = true) (h₂ : nameLe b c = true) :
    nameLe a c = true := by
  rcases a with _ | a
  · rfl
  · rcases b with _ | b
    · cases h₁
    · rcases c with _ | c
      · cases h₂
      · simp only [nameLe, decide_eq_true_eq] at h₁ h₂ ⊢
        exact String.le_trans h₁ h₂

theorem nameLe_total (a b : Option String) : (nameLe a b || nameLe b a) = true := by
  rcases a with _ | a
  · rfl
  · rcases b with _ | b
    · rfl
    · simpa [nameLe] using String.le_total a b

/-- The list is what was written, in the order of the file names. -/
theorem list_sorted (s : AttachmentStore) :
    s.list.Perm s.entries ∧
      s.list.Pairwise fun a b => nameLe a.file.fileName? b.file.fileName? = true := by
  refine ⟨List.mergeSort_perm _ _, List.pairwise_mergeSort ?_ ?_ _⟩
  · exact fun _ _ _ => nameLe_trans
  · exact fun _ _ => nameLe_total _ _

section HoldsFiles

open FileSystem

variable {names : List String}

/-- The file of this name can be written in the directory. -/
def Accepts (dir : Path) (file : String) : Prop := Fits file ∧ isUsable (dir.join file) = true

instance (dir : Path) (file : String) : Decidable (Accepts dir file) :=
  inferInstanceAs (Decidable (_ ∧ _))

theorem attach_of_holdsFiles {name extension : String} (hd : s.dir = some dir)
    (hf : s.files.HoldsFiles dir names)
    (ha : Accepts dir (fileName (s.used + 1).toNat name extension))
    (content : ByteArray) :
    ∃ a t, s.attach name extension content = (.written a, t) ∧ t.files.HoldsFiles dir names := by
  obtain ⟨files, hw, hf'⟩ := hf.write?_eq ha.1 ha.2 content
  unfold attach
  simp only [hd, hf.makeDirs?_eq, hw]
  exact ⟨_, _, rfl, hf'⟩

/-- A directory that holds nothing but files takes all files whose names are accepted. -/
theorem takes_of_holdsFiles {n : Nat} (hd : s.dir = some dir) (hf : s.files.HoldsFiles dir names)
    (hroom : s.HasRoom (2 * n))
    (ha : ∀ k < n, Accepts dir (fileName (s.used.toNat + 2 * k + 1) "Error details" "txt") ∧
      Accepts dir (fileName (s.used.toNat + 2 * k + 2) "Environment" "json")) : s.Takes n := by
  induction n generalizing s with
  | zero => trivial
  | succ n ih =>
    intro details picture
    obtain ⟨hfirst, hsecond⟩ := ha 0 (Nat.succ_pos n)
    have hroom : s.HasRoom (2 * n + 2) := hroom
    rw [Nat.mul_zero, Nat.add_zero, ← hroom.toNat_used_add_one] at hfirst
    obtain ⟨a, m, hm, hmf⟩ := attach_of_holdsFiles hd hf hfirst details
    obtain ⟨-, hmd, hmu, -⟩ := attach_written hd hm
    have hmroom : m.HasRoom (2 * n + 1) := hroom.of_used_eq hmu
    have hnext : s.used.toNat + 2 * 0 + 2 = (m.used + 1).toNat := by
      rw [hmroom.toNat_used_add_one, hmu, hroom.toNat_used_add_one]
    rw [hnext] at hsecond
    obtain ⟨b, t, ht, htf⟩ := attach_of_holdsFiles hmd hmf hsecond picture
    obtain ⟨-, htd, htu, -⟩ := attach_written hmd ht
    refine ⟨a, b, m, t, hm, ht, ih htd htf (hmroom.of_used_eq htu) fun k hk => ?_⟩
    have hused : t.used.toNat + 2 * k = s.used.toNat + 2 * (k + 1) := by
      rw [htu, ← hnext]
      omega
    rw [hused]
    exact ha (k + 1) (Nat.succ_lt_succ hk)

end HoldsFiles

end AttachmentStore

end Gherkin
