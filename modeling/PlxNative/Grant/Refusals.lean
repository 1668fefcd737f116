import PlxNative.Grant.Unsaved

/-! When a refusal is written until the file says so: in every run in which no completion is taken
for that of a later answer. -/
namespace PlxNative.Grant
open List Transducer SessionFile
open Transducer (Event event history history_invariant latest latest_snoc run)

section
variable {file : SessionFile} {machineId : Text}

theorem landed_account (file : SessionFile) (a : Answer) : (Writer.landed file a).account = file.account := by
  unfold Writer.landed
  split <;> rfl

theorem landed_choice {a : Answer} (own : a.account = file.account) (known : file.account ≠ []) (named : a.machineId ≠ []) :
    (Writer.landed file a).plaintextChoice file.account a.machineId = a.choice := by
  unfold Writer.landed
  split
  · have others : (file.plaintextConsent.filter (fun c => c.account = file.account && c.machineId ≠ a.machineId)).find?
        (fun c => c.account = file.account && c.machineId = a.machineId) = none := by
      rw [List.find?_eq_none]
      intro c mem
      simp only [mem_filter, Bool.and_eq_true, decide_eq_true_eq] at mem
      simp [mem.2.2]
    rw [own]
    unfold withPlaintextChoice plaintextChoice
    split
    · rw [List.find?_append, others]
      simp
    · rename_i forgets
      have undecided : a.choice = .undecided := by simpa [named, known] using forgets
      rw [others, undecided]
      rfl
  · rename_i eq
    simp only [own, decide_true, Bool.true_and, decide_eq_true_eq, not_not] at eq
    exact eq

theorem landed_other {a : Answer} (apart : machineId ≠ a.machineId) :
    (Writer.landed file a).plaintextChoice file.account machineId = file.plaintextChoice file.account machineId := by
  unfold Writer.landed
  split
  · rename_i own
    simp only [Bool.and_eq_true, decide_eq_true_eq] at own
    rw [← own.1]
    unfold withPlaintextChoice plaintextChoice
    have kept : (file.plaintextConsent.filter (fun c => c.account = file.account && c.machineId ≠ a.machineId)).find?
        (fun c => c.account = file.account && c.machineId = machineId) =
        file.plaintextConsent.find? (fun c => c.account = file.account && c.machineId = machineId) := by
      rw [List.find?_filter]
      congr 1
      funext c
      by_cases here : c.machineId = machineId
      · simp [here, apart]
      · simp [here]
    split
    · rw [List.find?_append, kept]
      simp [Ne.symm apart]
    · rw [kept]
  · rfl

end

section
variable {unsaved : List Unsaved} {answer : Answer} {landed : Bool}

theorem written_answers : (written answer landed unsaved).map (·.answer) =
    if landed then (unsaved.map (·.answer)).erase answer else unsaved.map (·.answer) := by
  induction unsaved with
  | nil => cases landed <;> rfl
  | cons u rest ih =>
    unfold written
    by_cases eq : u.answer = answer
    · cases landed <;> simp [eq]
    · cases landed <;> simp_all

theorem rearm_answer (now : Nat) (u : Unsaved) : (u.rearm now).1.answer = u.answer ∧ ∀ a, (u.rearm now).2 = some a → a = u.answer := by
  unfold Unsaved.rearm
  split
  · exact ⟨rfl, nofun⟩
  · split
    · exact ⟨rfl, nofun⟩
    · split
      · exact ⟨rfl, fun a eq => (Option.some.inj eq).symm⟩
      · exact ⟨rfl, nofun⟩

end
section
variable {past : List WriterStep} {w : Writer}

/-- The answer that a write has for a server. -/
def choiceFor (machineId : Text) (job : Answer) : Option PlaintextChoice :=
  if job.machineId = machineId then some job.choice else none

/-- The last write for a server, of those that are queued or else of those that were run. -/
def lastWrite (past : List WriterStep) (jobs : List Answer) (machineId : Text) : Option PlaintextChoice :=
  (jobs.filterMap (choiceFor machineId)).getLast?.or ((latest (WriterStep.ran machineId) past).map (·.1))

structure WriterKept (past : List WriterStep) (w : Writer) : Prop where
  entries : ∀ u ∈ w.unsaved, u.answer.account = w.file.account ∧ newest past u.answer.machineId = some u.answer.choice
  once : (w.unsaved.map (·.answer)).Nodup
  count : w.unsavedCount = w.unsaved.length
  jobs : ∀ job ∈ w.jobs, job.account = w.file.account
  known : w.file.account = [] → w.jobs = [] ∧ w.unsaved = []
  over_ : ∀ answer, w.over_ = some (answer, true) → answer.machineId ≠ [] →
    w.file.plaintextChoice w.file.account answer.machineId = answer.choice
  last : ∀ machineId choice, newest past machineId = some choice → lastWrite past w.jobs machineId = some choice
  ran : ∀ machineId choice, machineId ≠ [] → latest (WriterStep.ran machineId) past = some (choice, true) →
    w.file.plaintextChoice w.file.account machineId = choice

theorem new_kept (file : SessionFile) : WriterKept [] (.new file) where
  entries := fun _ mem => absurd mem not_mem_nil
  once := .nil
  count := rfl
  jobs := fun _ mem => absurd mem not_mem_nil
  known := fun _ => ⟨rfl, rfl⟩
  over_ := fun _ eq => by cases eq
  last := fun _ _ eq => by cases eq
  ran := fun _ _ _ eq => by cases eq

variable {x : WriterStep}

theorem newest_snoc (machineId : Text) (other : WriterStep.recorded machineId x = none) :
    newest (past ++ [x]) machineId = newest past machineId := by
  rw [newest, latest_snoc, other, Option.none_or]
  rfl

variable {machineId : Text}

theorem ran_snoc (other : WriterStep.ran machineId x = none) :
    latest (WriterStep.ran machineId) (past ++ [x]) = latest (WriterStep.ran machineId) past := by
  rw [latest_snoc, other, Option.none_or]

theorem newest_recorded {choice : PlaintextChoice}
    (recorded : WriterStep.recorded machineId x = some choice) : newest (past ++ [x]) machineId = some choice := by
  rw [newest, latest_snoc, recorded, Option.some_or]

section

theorem record_unsaved (machineId : Text) (choice : PlaintextChoice) (named : w.file.account ≠ []) (entries : ∀ u ∈ w.unsaved, u.answer.account = w.file.account) :
    (w.record machineId choice).unsaved = w.unsaved.filter (·.answer.machineId ≠ machineId) ++
      (if choice.allows then [] else [⟨⟨w.file.account, machineId, choice⟩, true, none, 1⟩]) ∧
    (w.record machineId choice).jobs = w.jobs ++ [⟨w.file.account, machineId, choice⟩] ∧
    (w.record machineId choice).over_ = w.over_ ∧ (w.record machineId choice).file = w.file ∧
    (w.record machineId choice).unsavedCount = (w.record machineId choice).unsaved.length := by
  have others : w.unsaved.filter (fun u => u.answer.account ≠ w.file.account || u.answer.machineId ≠ machineId) =
      w.unsaved.filter (·.answer.machineId ≠ machineId) := by
    apply filter_congr
    intro u mem
    simp [entries u mem]
  have known : w.file.account.isEmpty = false := by simpa using named
  simp only [Writer.record, known, Bool.false_eq_true, if_false, others, Writer.hold]
  split <;> simp

end

theorem WriterKept.record (kept : WriterKept past w) (machineId : Text) (choice : PlaintextChoice) :
    WriterKept (past ++ [event Writer.step w (.record machineId choice)]) (w.record machineId choice) := by
  have unran : ∀ m, WriterStep.ran m (event Writer.step w (.record machineId choice)) = none := fun _ => rfl
  by_cases named : w.file.account = []
  · have eq : w.record machineId choice = w := by simp [Writer.record, named]
    have unrecorded : ∀ m, WriterStep.recorded m (event Writer.step w (.record machineId choice)) = none := by
      simp [WriterStep.recorded, event, named]
    rw [eq]
    refine ⟨?_, kept.once, kept.count, kept.jobs, kept.known, kept.over_, ?_, ?_⟩
    · simpa only [newest_snoc _ (unrecorded _)] using kept.entries
    · simpa only [newest_snoc _ (unrecorded _), lastWrite, ran_snoc (unran _)] using kept.last
    · simpa only [ran_snoc (unran _)] using kept.ran
  · obtain ⟨unsaved, jobs, over_, file, count⟩ := record_unsaved machineId choice named
      (fun u mem => (kept.entries u mem).1)
    have here : newest (past ++ [event Writer.step w (.record machineId choice)]) machineId = some choice :=
      newest_recorded (by simp [WriterStep.recorded, event, named])
    have there : ∀ m, m ≠ machineId → newest (past ++ [event Writer.step w (.record machineId choice)]) m = newest past m :=
      fun m apart => newest_snoc m (by simp [WriterStep.recorded, event, Ne.symm apart])
    refine ⟨?_, ?_, count, ?_, ?_, ?_, ?_, ?_⟩
    · intro u mem
      rw [unsaved] at mem
      rw [file]
      rcases mem_append.mp mem with old | now
      · obtain ⟨old, apart⟩ := mem_filter.mp old
        rw [there _ (by simpa using apart)]
        exact kept.entries u old
      · split at now
        · cases now
        · rw [mem_singleton.mp now]
          exact ⟨rfl, here⟩
    · rw [unsaved, map_append]
      refine nodup_append.mpr ⟨(kept.once.sublist ((filter_sublist).map _)), ?_, ?_⟩
      · split <;> simp
      · intro a old b now eq
        split at now
        · cases now
        · obtain ⟨u, mem, rfl⟩ := mem_map.mp old
          have apart := (mem_filter.mp mem).2
          simp only [map_cons, map_nil, mem_singleton] at now
          simp [eq, now] at apart
    · intro job mem
      rw [jobs] at mem
      rw [file]
      rcases mem_append.mp mem with old | now
      · exact kept.jobs job old
      · rw [mem_singleton.mp now]
    · rw [file]
      exact fun unnamed => absurd unnamed named
    · rw [over_, file]
      exact kept.over_
    · intro m c recorded
      simp only [lastWrite, ran_snoc (unran m), jobs]
      by_cases eq : m = machineId
      · subst eq
        rw [here] at recorded
        cases recorded
        simp [choiceFor]
      · rw [there m eq] at recorded
        have last := kept.last m c recorded
        simpa [lastWrite, choiceFor, Ne.symm eq] using last
    · rw [file]
      simpa only [ran_snoc (unran _)] using kept.ran

theorem run_idle (lands : Bool) (idle : ∀ answer rest, w.over_ = none → w.jobs ≠ answer :: rest) : w.run lands = w := by
  unfold Writer.run
  split
  · exact absurd ‹_› (idle _ _ ‹_›)
  · rfl

section
variable (kept : WriterKept past w)
include kept

theorem WriterKept.run (lands : Bool) :
    WriterKept (past ++ [event Writer.step w (.run lands)]) (w.run lands) := by
  have unrecorded : ∀ m, newest (past ++ [event Writer.step w (.run lands)]) m = newest past m := fun m => newest_snoc m rfl
  by_cases busy : ∃ answer rest, w.over_ = none ∧ w.jobs = answer :: rest
  · obtain ⟨answer, rest, free, jobs⟩ := busy
    have here : ∀ m, latest (WriterStep.ran m) (past ++ [event Writer.step w (.run lands)]) =
        if answer.machineId = m then some (answer.choice, lands) else latest (WriterStep.ran m) past := by
      intro m
      rw [latest_snoc]
      simp only [event, WriterStep.ran, free, jobs]
      split <;> simp
    have own : answer.account = w.file.account := kept.jobs answer (by rw [jobs]; exact mem_cons_self)
    have named : w.file.account ≠ [] := by
      intro unnamed
      rw [(kept.known unnamed).1] at jobs
      cases jobs
    have result : w.run lands =
        { w with jobs := rest, over_ := some (answer, lands), file := if lands then Writer.landed w.file answer else w.file } := by
      simp only [Writer.run, free, jobs]
    have account : (if lands then Writer.landed w.file answer else w.file).account = w.file.account := by
      split
      · exact landed_account w.file answer
      · rfl
    rw [result]
    refine ⟨?_, kept.once, kept.count, ?_, ?_, ?_, ?_, ?_⟩
    · intro u mem
      simp only [account, unrecorded]
      exact kept.entries u mem
    · intro job mem
      simp only [account]
      exact kept.jobs job (by rw [jobs]; exact mem_cons_of_mem _ mem)
    · simp only [account]
      exact fun unnamed => absurd unnamed named
    · rintro a over_ filled
      cases over_
      simp only [if_true]
      rw [landed_account]
      exact landed_choice own named filled
    · intro m choice recorded
      rw [unrecorded] at recorded
      have last := kept.last m choice recorded
      simp only [lastWrite, here]
      simp only [lastWrite, jobs, filterMap_cons, choiceFor] at last
      split at last
      · rename_i other
        split at other
        · cases other
        · rename_i apart
          rw [if_neg apart]
          exact last
      · rename_i c written_
        split at written_
        · rename_i eq
          cases written_
          rw [if_pos eq]
          rw [List.getLast?_cons] at last
          cases tail : (rest.filterMap (choiceFor m)).getLast? with
          | none => simpa [tail] using last
          | some d => simpa [tail] using last
        · cases written_
    · intro m choice filled ran
      rw [here] at ran
      split at ran
      · rename_i eq
        cases ran
        subst eq
        simp only [if_true]
        rw [landed_account]
        exact landed_choice own named filled
      · rename_i apart
        have old := kept.ran m choice filled ran
        cases lands with
        | true =>
          simp only [if_true]
          rw [landed_account, landed_other (Ne.symm apart)]
          exact old
        | false => exact old
  · have idle : ∀ answer rest, w.over_ = none → w.jobs ≠ answer :: rest := fun answer rest free jobs => busy ⟨answer, rest, free, jobs⟩
    have unran : ∀ m, WriterStep.ran m (event Writer.step w (.run lands)) = none := by
      intro m
      simp only [WriterStep.ran, event]
      cases free : w.over_ with
      | some over_ => rfl
      | none =>
        cases jobs : w.jobs with
        | nil => rfl
        | cons answer rest => exact absurd jobs (idle answer rest free)
    rw [run_idle lands idle]
    refine ⟨?_, kept.once, kept.count, kept.jobs, kept.known, kept.over_, ?_, ?_⟩
    · simpa only [unrecorded] using kept.entries
    · simpa only [unrecorded, lastWrite, ran_snoc (unran _)] using kept.last
    · simpa only [ran_snoc (unran _)] using kept.ran

theorem WriterKept.tell : WriterKept (past ++ [event Writer.step w .tell]) w.tell := by
  have unrecorded : ∀ m, newest (past ++ [event Writer.step w .tell]) m = newest past m := fun m => newest_snoc m rfl
  have unran : ∀ m, WriterStep.ran m (event Writer.step w .tell) = none := fun _ => rfl
  have last := kept.last
  have ran := kept.ran
  unfold Writer.tell
  split
  · rename_i answer landed over_
    have answers : ((written answer landed w.unsaved).map (·.answer)).Sublist (w.unsaved.map (·.answer)) := by
      rw [written_answers]
      split
      · exact erase_sublist
      · exact .refl _
    refine ⟨?_, kept.once.sublist answers, rfl, kept.jobs, ?_, nofun, ?_, ?_⟩
    · intro u mem
      have known : u.answer ∈ w.unsaved.map (·.answer) := answers.subset (mem_map_of_mem mem)
      obtain ⟨v, old, eq⟩ := mem_map.mp known
      rw [unrecorded, ← eq]
      exact kept.entries v old
    · intro unnamed
      obtain ⟨jobs, unsaved⟩ := kept.known unnamed
      exact ⟨jobs, by simp [Writer.hold, unsaved, written]⟩
    · simpa only [unrecorded, lastWrite, ran_snoc (unran _), Writer.hold] using last
    · simpa only [ran_snoc (unran _), Writer.hold] using ran
  · refine ⟨?_, kept.once, kept.count, kept.jobs, kept.known, kept.over_, ?_, ?_⟩
    · simpa only [unrecorded] using kept.entries
    · simpa only [unrecorded, lastWrite, ran_snoc (unran _)] using last
    · simpa only [ran_snoc (unran _)] using ran

theorem rearmed_newest (now : Nat) :
    ∀ job ∈ w.unsaved.filterMap (fun u => (u.rearm now).2), job.account = w.file.account ∧ newest past job.machineId = some job.choice := by
  intro job mem
  obtain ⟨u, old, queued⟩ := mem_filterMap.mp mem
  rw [(rearm_answer now u).2 job queued]
  exact kept.entries u old

theorem WriterKept.frame (now : Nat) :
    WriterKept (past ++ [event Writer.step w (.frame now)]) (w.rewriteUnsaved now) := by
  have unrecorded : ∀ m, newest (past ++ [event Writer.step w (.frame now)]) m = newest past m := fun m => newest_snoc m rfl
  have unran : ∀ m, WriterStep.ran m (event Writer.step w (.frame now)) = none := fun _ => rfl
  have answers : (w.unsaved.map (fun u => (u.rearm now).1)).map (·.answer) = w.unsaved.map (·.answer) := by
    rw [map_map]
    exact map_congr_left (fun u _ => (rearm_answer now u).1)
  have last := kept.last
  unfold Writer.rewriteUnsaved
  split
  · refine ⟨?_, kept.once, kept.count, kept.jobs, kept.known, kept.over_, ?_, ?_⟩
    · simpa only [unrecorded] using kept.entries
    · simpa only [unrecorded, lastWrite, ran_snoc (unran _)] using last
    · simpa only [ran_snoc (unran _)] using kept.ran
  · refine ⟨?_, by rw [answers]; exact kept.once, by rw [length_map]; exact kept.count, ?_, ?_, kept.over_, ?_, ?_⟩
    · intro u mem
      obtain ⟨v, old, rfl⟩ := mem_map.mp mem
      rw [unrecorded, (rearm_answer now v).1]
      exact kept.entries v old
    · intro job mem
      rcases mem_append.mp mem with old | again
      · exact kept.jobs job old
      · exact (rearmed_newest kept now job again).1
    · intro unnamed
      obtain ⟨jobs, unsaved⟩ := kept.known unnamed
      simp [jobs, unsaved]
    · intro m choice recorded
      rw [unrecorded] at recorded
      have before := last m choice recorded
      simp only [lastWrite, ran_snoc (unran m), filterMap_append, List.getLast?_append]
      cases again : ((w.unsaved.filterMap (fun u => (u.rearm now).2)).filterMap (choiceFor m)).getLast? with
      | none => simpa [lastWrite] using before
      | some c =>
        obtain ⟨job, queued, eq⟩ := mem_filterMap.mp (List.mem_of_getLast? again)
        unfold choiceFor at eq
        split at eq
        · rename_i for_
          cases eq
          have newest_ := (rearmed_newest kept now job queued).2
          rw [for_, recorded] at newest_
          cases newest_
          rfl
        · cases eq
    · simpa only [ran_snoc (unran _)] using kept.ran

theorem WriterKept.step (move : WriterMove) :
    WriterKept (past ++ [event Writer.step w move]) (w.step move).1 := by
  cases move with
  | record machineId choice => exact kept.record machineId choice
  | run lands => exact kept.run lands
  | tell => exact kept.tell
  | frame now => exact kept.frame now

end

theorem run_kept (file : SessionFile) (moves : List WriterMove) :
    WriterKept (history Writer.step (.new file) moves) (Transducer.run Writer.step (.new file) moves) :=
  history_invariant Writer.step (fun _ _ move kept => kept.step move) (new_kept file) moves

theorem WriterKept.settled (kept : WriterKept past w) : SettledExact past w := by
  intro jobs over_ unsaved landed machineId choice filled recorded
  obtain ⟨last, found⟩ := landed machineId choice recorded
  have eq := kept.last machineId choice recorded
  rw [jobs, lastWrite, found] at eq
  cases eq
  exact kept.ran machineId last filled found

section

variable {m : Text} {c : PlaintextChoice}

theorem record_entries (entries : ∀ u ∈ w.unsaved, u.answer.account = w.file.account) {machineId : Text} {choice : PlaintextChoice}
    (named : w.file.account ≠ []) (apart : m ≠ machineId) (waits : ∃ u ∈ w.unsaved, u.answer = ⟨w.file.account, m, c⟩) :
    ∃ u ∈ (w.record machineId choice).unsaved, u.answer = ⟨w.file.account, m, c⟩ := by
  obtain ⟨u, mem, eq⟩ := waits
  refine ⟨u, ?_, eq⟩
  rw [(record_unsaved machineId choice named entries).1]
  exact mem_append_left _ (mem_filter.mpr ⟨mem, by simp [eq, apart]⟩)

theorem tell_refusal (kept : WriterKept past w) (clear : ¬ Overtaken w) (filled : m ≠ [])
    (waits : ∃ u ∈ w.unsaved, u.answer = ⟨w.file.account, m, c⟩) :
    (w.file.plaintextChoice w.file.account m = c ∧ ∀ job ∈ w.jobs, job.machineId = m → job.choice = c) ∨
      ∃ u ∈ w.tell.unsaved, u.answer = ⟨w.file.account, m, c⟩ := by
  obtain ⟨u, mem, eq⟩ := waits
  unfold Writer.tell
  split
  · rename_i answer landed over_
    by_cases own : answer = ⟨w.file.account, m, c⟩ ∧ landed = true
    · obtain ⟨rfl, rfl⟩ := own
      refine .inl ⟨kept.over_ _ over_ filled, fun job queued for_ => ?_⟩
      by_contra other
      refine clear ?_
      simp only [Overtaken, over_, Option.any_some, Bool.and_eq_true, any_eq_true, decide_eq_true_eq]
      exact ⟨⟨by simpa using filled, u, mem, eq⟩, job, queued, for_, by simpa using other⟩
    · refine .inr ?_
      have known : (⟨w.file.account, m, c⟩ : Answer) ∈ (written answer landed w.unsaved).map (·.answer) := by
        rw [written_answers]
        have before : (⟨w.file.account, m, c⟩ : Answer) ∈ w.unsaved.map (·.answer) := eq ▸ mem_map_of_mem mem
        split
        · rename_i landed_
          exact (mem_erase_of_ne (fun is_ => own ⟨is_.symm, landed_⟩)).mpr before
        · exact before
      obtain ⟨v, left, is_⟩ := mem_map.mp known
      exact ⟨v, left, is_⟩
  · exact .inr ⟨u, mem, eq⟩

theorem run_refusal (kept : WriterKept past w) (lands : Bool) (filled : m ≠ [])
    (holds : w.file.plaintextChoice w.file.account m = c) (queued : ∀ job ∈ w.jobs, job.machineId = m → job.choice = c) :
    (w.run lands).file.plaintextChoice (w.run lands).file.account m = c ∧
      ∀ job ∈ (w.run lands).jobs, job.machineId = m → job.choice = c := by
  unfold Writer.run
  split
  · rename_i answer rest free jobs
    have head : answer ∈ w.jobs := by rw [jobs]; exact mem_cons_self
    have own := kept.jobs answer head
    have named : w.file.account ≠ [] := by
      intro unnamed
      rw [(kept.known unnamed).1] at jobs
      cases jobs
    refine ⟨?_, fun job mem => queued job (by rw [jobs]; exact mem_cons_of_mem _ mem)⟩
    cases lands with
    | false => exact holds
    | true =>
      simp only [if_true]
      rw [landed_account]
      by_cases here : answer.machineId = m
      · subst here
        rw [landed_choice own named filled]
        exact queued answer head rfl
      · rw [landed_other (Ne.symm here)]
        exact holds
  · exact ⟨holds, queued⟩

theorem run_unsaved (lands : Bool) :
    (w.run lands).unsaved = w.unsaved ∧ (w.run lands).file.account = w.file.account := by
  unfold Writer.run
  split
  · refine ⟨rfl, ?_⟩
    cases lands with
    | true => exact landed_account _ _
    | false => rfl
  · exact ⟨rfl, rfl⟩

theorem tell_file : w.tell.file = w.file ∧ w.tell.jobs = w.jobs := by
  unfold Writer.tell
  split <;> exact ⟨rfl, rfl⟩

theorem RefusalKept.step (kept : WriterKept past w) (refusal : RefusalKept past w) (move : WriterMove)
    (clear : move = .tell → ¬ Overtaken w) : RefusalKept (past ++ [event Writer.step w move]) (w.step move).1 := by
  intro m c filled recorded refuses
  cases move with
  | record machineId choice =>
    show _ ∧ _ ∨ ∃ u ∈ (w.record machineId choice).unsaved, u.answer = ⟨(w.record machineId choice).file.account, m, c⟩
    by_cases named : w.file.account = []
    · have unrecorded : WriterStep.recorded m (event Writer.step w (.record machineId choice)) = none := by
        simp [WriterStep.recorded, event, named]
      have eq : w.record machineId choice = w := by simp [Writer.record, named]
      rw [newest_snoc m unrecorded] at recorded
      have old := refusal m c filled recorded refuses
      simpa only [Writer.step, eq] using old
    · obtain ⟨unsaved, jobs, -, file, -⟩ := record_unsaved machineId choice named
        (fun u mem => (kept.entries u mem).1)
      rw [file]
      by_cases here : m = machineId
      · subst here
        have now : newest (past ++ [event Writer.step w (.record m choice)]) m = some choice :=
          newest_recorded (by simp [WriterStep.recorded, event, named])
        rw [now] at recorded
        cases recorded
        refine .inr ⟨⟨⟨w.file.account, m, c⟩, true, none, 1⟩, ?_, rfl⟩
        rw [unsaved, if_neg (by simp [refuses])]
        exact mem_append_right _ mem_cons_self
      · rw [newest_snoc m (by simp [WriterStep.recorded, event, Ne.symm here])] at recorded
        rcases refusal m c filled recorded refuses with ⟨holds, queued⟩ | waits
        · refine .inl ⟨?_, fun job mem for_ => ?_⟩
          · show (w.record machineId choice).file.plaintextChoice (w.record machineId choice).file.account m = c
            rw [file]
            exact holds
          · have mem : job ∈ (w.record machineId choice).jobs := mem
            rw [jobs] at mem
            rcases mem_append.mp mem with old | now
            · exact queued job old for_
            · rw [mem_singleton.mp now] at for_
              exact absurd for_.symm here
        · exact .inr (record_entries (fun u mem => (kept.entries u mem).1) named here waits)
  | run lands =>
    rw [newest_snoc m rfl] at recorded
    rcases refusal m c filled recorded refuses with ⟨holds, queued⟩ | ⟨u, mem, eq⟩
    · exact .inl (run_refusal kept lands filled holds queued)
    · obtain ⟨unsaved, account⟩ := run_unsaved (w := w) lands
      exact .inr ⟨u, unsaved ▸ mem, eq.trans (by rw [← account]; rfl)⟩
  | tell =>
    rw [newest_snoc m rfl] at recorded
    obtain ⟨file, jobs⟩ := tell_file (w := w)
    show (w.tell.file.plaintextChoice w.tell.file.account m = c ∧ ∀ job ∈ w.tell.jobs, _) ∨
      ∃ u ∈ w.tell.unsaved, u.answer = ⟨w.tell.file.account, m, c⟩
    rw [file, jobs]
    rcases refusal m c filled recorded refuses with stays | waits
    · exact .inl stays
    · exact tell_refusal kept (clear rfl) filled waits
  | frame now =>
    rw [newest_snoc m rfl] at recorded
    show ((w.rewriteUnsaved now).file.plaintextChoice (w.rewriteUnsaved now).file.account m = c ∧
      ∀ job ∈ (w.rewriteUnsaved now).jobs, _) ∨
      ∃ u ∈ (w.rewriteUnsaved now).unsaved, u.answer = ⟨(w.rewriteUnsaved now).file.account, m, c⟩
    unfold Writer.rewriteUnsaved
    split
    · exact refusal m c filled recorded refuses
    · rcases refusal m c filled recorded refuses with ⟨holds, queued⟩ | ⟨u, mem, eq⟩
      · refine .inl ⟨holds, fun job mem for_ => ?_⟩
        rcases mem_append.mp mem with old | again
        · exact queued job old for_
        · have newest_ := (rearmed_newest kept now job again).2
          rw [for_, recorded] at newest_
          exact (Option.some.inj newest_).symm
      · exact .inr ⟨(u.rearm now).1, mem_map_of_mem mem, (rearm_answer now u).1.trans eq⟩

theorem step_refuses (waits : ∀ u ∈ w.unsaved, u.answer.choice.allows = false) (move : WriterMove) :
    ∀ u ∈ (w.step move).1.unsaved, u.answer.choice.allows = false := by
  intro u mem
  cases move with
  | record machineId choice =>
    have mem : u ∈ (w.record machineId choice).unsaved := mem
    unfold Writer.record at mem
    split at mem
    · exact waits u mem
    · split at mem
      · exact waits u (mem_of_mem_filter mem)
      · rename_i refuses
        rcases mem_append.mp mem with old | now
        · exact waits u (mem_of_mem_filter old)
        · rw [mem_singleton.mp now]
          simpa using refuses
  | run lands => exact waits u ((run_unsaved (w := w) lands).1 ▸ mem)
  | tell =>
    have mem : u ∈ w.tell.unsaved := mem
    unfold Writer.tell at mem
    split at mem
    · have known := mem_map_of_mem (f := (·.answer)) mem
      simp only [Writer.hold, written_answers] at known
      have before : u.answer ∈ w.unsaved.map (·.answer) := by
        split at known
        · exact mem_of_mem_erase known
        · exact known
      obtain ⟨v, old, eq⟩ := mem_map.mp before
      rw [← eq]
      exact waits v old
    · exact waits u mem
  | frame now =>
    have mem : u ∈ (w.rewriteUnsaved now).unsaved := mem
    unfold Writer.rewriteUnsaved at mem
    split at mem
    · exact waits u mem
    · obtain ⟨v, old, rfl⟩ := mem_map.mp mem
      rw [(rearm_answer now v).1]
      exact waits v old

theorem overtaken_loses (kept : WriterKept past w) (overtaken : Overtaken w)
    (refusals : ∀ u ∈ w.unsaved, u.answer.choice.allows = false) :
    ¬ RefusalKept (past ++ [event Writer.step w .tell]) w.tell := by
  intro refusal
  unfold Overtaken at overtaken
  obtain ⟨⟨answer, landed⟩, over_⟩ : ∃ o, w.over_ = some o := by
    cases over_ : w.over_ with
    | none => simp [over_] at overtaken
    | some o => exact ⟨o, rfl⟩
  rw [over_, Option.any_some] at overtaken
  have lost := overtaken
  simp only [Bool.and_eq_true, any_eq_true, decide_eq_true_eq, Bool.not_eq_true', isEmpty_eq_false_iff] at lost
  obtain ⟨⟨⟨rfl, filled⟩, u, mem, rfl⟩, job, queued, for_, other⟩ := lost
  obtain ⟨account, newest_⟩ := kept.entries u mem
  have recorded : newest (past ++ [event Writer.step w .tell]) u.answer.machineId = some u.answer.choice := by
    rw [newest_snoc _ rfl]
    exact newest_
  obtain ⟨file, jobs⟩ := tell_file (w := w)
  rcases refusal _ _ filled recorded (refusals u mem) with ⟨-, eq⟩ | ⟨v, left, eq⟩
  · rw [jobs] at eq
    exact other (eq job queued for_)
  · rw [file, ← account] at eq
    have gone : u.answer ∉ (written u.answer true w.unsaved).map (·.answer) := by
      rw [written_answers, if_pos rfl]
      exact kept.once.not_mem_erase
    have told : w.tell.unsaved = written u.answer true w.unsaved := by
      unfold Writer.tell
      rw [over_]
      rfl
    rw [told] at left
    exact gone (mem_map.mpr ⟨v, left, eq⟩)

end

end

section

/-- Off, on, and off again while the first write is still queued: its completion is taken for that
of the last, whose own write then fails, and nothing writes it again. -/
theorem refusal_is_lost :
    let moves : List WriterMove := [.record "m".toList .revoked, .record "m".toList .allowed, .record "m".toList .revoked,
      .run true, .tell, .run true, .tell, .run false, .tell]
    let w := Transducer.run Writer.step (.new ⟨"a".toList, []⟩) moves
    w.file.plaintextChoice "a".toList "m".toList = .allowed ∧ w.jobs = [] ∧ w.unsaved = [] ∧
      ¬ RefusalKept (history Writer.step (.new ⟨"a".toList, []⟩) moves) w := by
  intro moves w
  have saved : w.file.plaintextChoice "a".toList "m".toList = .allowed := by decide +kernel
  refine ⟨saved, by decide +kernel, by decide +kernel, fun refusal => ?_⟩
  have recorded : newest (history Writer.step (.new ⟨"a".toList, []⟩) moves) "m".toList = some .revoked := by decide +kernel
  rcases refusal "m".toList .revoked (by decide) recorded rfl with ⟨holds, -⟩ | ⟨u, member, -⟩
  · have same : w.file.plaintextChoice "a".toList "m".toList = .revoked := holds
    cases same
  · have none_ : w.unsaved = [] := by decide +kernel
    cases member

theorem run_refuses (file : SessionFile) (moves : List WriterMove) :
    ∀ u ∈ (Transducer.run Writer.step (.new file) moves).unsaved, u.answer.choice.allows = false :=
  run_invariant Writer.step (P := fun w => ∀ u ∈ w.unsaved, u.answer.choice.allows = false)
    (fun _ move waits => step_refuses waits move) (fun _ mem => absurd mem not_mem_nil) moves

theorem refusals_kept (file : SessionFile) (moves : List WriterMove)
    (clear : ∀ before after, moves = before ++ .tell :: after → ¬ Overtaken (Transducer.run Writer.step (.new file) before)) :
    RefusalKept (history Writer.step (.new file) moves) (Transducer.run Writer.step (.new file) moves) := by
  induction moves using List.reverseRecOn with
  | nil => exact fun _ _ _ recorded => by cases recorded
  | append_singleton moves move ih =>
    rw [history_snoc, run_snoc]
    refine RefusalKept.step (run_kept file moves) (ih (fun before after split => ?_)) move (fun tells => ?_)
    · exact clear before (after ++ [move]) (by rw [split]; simp)
    · exact clear moves [] (by rw [tells])

/-- Every newest refusal is in the file for good or waits to be written again, and the file that is
settled has every newest answer, after every part of a run: exactly when no completion in it is
taken for that of a later answer while another answer is still queued. -/
theorem refusals_kept_iff (file : SessionFile) (moves : List WriterMove) :
    (∀ before after, moves = before ++ after →
      RefusalKept (history Writer.step (.new file) before) (Transducer.run Writer.step (.new file) before) ∧
        SettledExact (history Writer.step (.new file) before) (Transducer.run Writer.step (.new file) before)) ↔
    ∀ before after, moves = before ++ .tell :: after → ¬ Overtaken (Transducer.run Writer.step (.new file) before) := by
  constructor
  · intro all before after split overtaken
    have refusal := (all (before ++ [.tell]) after (by rw [split]; simp)).1
    rw [history_snoc, run_snoc] at refusal
    exact overtaken_loses (run_kept file before) overtaken (run_refuses file before) refusal
  · rintro clear before after rfl
    refine ⟨refusals_kept file before (fun b a split => ?_), (run_kept file before).settled⟩
    exact clear b (a ++ after) (by rw [split]; simp)

end
end PlxNative.Grant
