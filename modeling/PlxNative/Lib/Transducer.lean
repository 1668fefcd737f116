import Mathlib.Data.List.Induction

/-! Deterministic transitions that answer, with their runs and their histories.
Nothing here depends on what is being stepped: a component supplies one total
`step` and reads its whole-run properties off `history`. -/
namespace PlxNative.Transducer
open List

universe u v w
variable {σ : Type u} {ι : Type v} {ω : Type w}

/-- One observed transition, with the states on both sides of it. -/
structure Event (σ : Type u) (ι : Type v) (ω : Type w) where
  before : σ
  input : ι
  answer : ω
  after : σ

def event (step : σ → ι → σ × ω) (s : σ) (i : ι) : Event σ ι ω :=
  ⟨s, i, (step s i).2, (step s i).1⟩

def run (step : σ → ι → σ × ω) : σ → List ι → σ
  | s, [] => s
  | s, i :: rest => run step (step s i).1 rest

def history (step : σ → ι → σ × ω) : σ → List ι → List (Event σ ι ω)
  | _, [] => []
  | s, i :: rest => event step s i :: history step (step s i).1 rest

variable (step : σ → ι → σ × ω)

@[simp] theorem run_nil (s : σ) : run step s [] = s := rfl

@[simp] theorem history_nil (s : σ) : history step s [] = [] := rfl

theorem run_append (s : σ) (is js : List ι) :
    run step s (is ++ js) = run step (run step s is) js := by
  induction is generalizing s with
  | nil => rfl
  | cons i is ih => exact ih (step s i).1

theorem history_append (s : σ) (is js : List ι) :
    history step s (is ++ js) = history step s is ++ history step (run step s is) js := by
  induction is generalizing s with
  | nil => rfl
  | cons i is ih => simp only [cons_append, history, run, ih]

theorem run_snoc (s : σ) (is : List ι) (i : ι) :
    run step s (is ++ [i]) = (step (run step s is) i).1 := by
  simp only [run_append, run]

theorem history_snoc (s : σ) (is : List ι) (i : ι) :
    history step s (is ++ [i]) = history step s is ++ [event step (run step s is) i] := by
  simp only [history_append, history]

variable {s : σ}
variable {P : σ → Prop}

theorem run_invariant (keep : ∀ s i, P s → P (step s i).1) (start : P s)
    (is : List ι) : P (run step s is) := by
  induction is generalizing s with
  | nil => exact start
  | cons i is ih => exact ih (keep s i start)

variable {R : List (Event σ ι ω) → σ → Prop}

theorem history_invariant (keep : ∀ past s i, R past s → R (past ++ [event step s i]) (step s i).1)
    (start : R [] s) (is : List ι) : R (history step s is) (run step s is) := by
  induction is using List.reverseRecOn with
  | nil => exact start
  | append_singleton is i ih =>
    rw [history_snoc, run_snoc]
    exact keep _ _ i ih

variable {is : List ι}
variable {e : Event σ ι ω}

@[simp] theorem history_inputs (s : σ) (is : List ι) : (history step s is).map Event.input = is := by
  induction is generalizing s with
  | nil => rfl
  | cons i is ih => exact congrArg (i :: ·) (ih (step s i).1)

theorem input_mem_of_history (mem : e ∈ history step s is) : e.input ∈ is := by
  rw [← history_inputs step s is]
  exact mem_map_of_mem mem

theorem mem_history (mem : e ∈ history step s is) : e = event step e.before e.input := by
  induction is generalizing s with
  | nil => cases mem
  | cons i is ih =>
    rcases mem_cons.mp mem with rfl | later
    · rfl
    · exact ih later

variable {fits : Event σ ι ω → Prop}

theorem history_holds {Q : σ → Prop} (keep : ∀ s i, fits (event step s i) → Q s → Q (step s i).1) (start : Q s)
    (all : ∀ e ∈ history step s is, fits e) : ∀ e ∈ history step s is, Q e.before ∧ Q e.after := by
  induction is generalizing s with
  | nil => exact fun e mem => nomatch mem
  | cons i is ih =>
    have next : Q (step s i).1 := keep s i (all _ mem_cons_self) start
    intro e mem
    rcases mem_cons.mp mem with rfl | later
    · exact ⟨start, next⟩
    · exact ih next (fun e later => all e (mem_cons_of_mem _ later)) e later

theorem run_holds (keep : ∀ s i, fits (event step s i) → P s → P (step s i).1) (start : P s)
    (all : ∀ e ∈ history step s is, fits e) : P (run step s is) := by
  induction is generalizing s with
  | nil => exact start
  | cons i is ih =>
    exact ih (keep s i (all _ mem_cons_self) start) (fun e later => all e (mem_cons_of_mem _ later))

/-- A run whose every input meets `guard` when it is made, given the past. -/
def Guarded (guard : List (Event σ ι ω) → σ → ι → Prop) :
    List (Event σ ι ω) → σ → List ι → Prop
  | _, _, [] => True
  | past, s, i :: rest =>
    guard past s i ∧ Guarded guard (past ++ [event step s i]) (step s i).1 rest

variable {past : List (Event σ ι ω)}

theorem guarded_invariant {guard : List (Event σ ι ω) → σ → ι → Prop}
    (keep : ∀ past s i, guard past s i → R past s → R (past ++ [event step s i]) (step s i).1)
    (start : R past s)
    (meets : Guarded step guard past s is) : R (past ++ history step s is) (run step s is) := by
  induction is generalizing past s with
  | nil =>
    rw [history_nil, append_nil]
    exact start
  | cons i rest ih =>
    have later := ih (keep past s i meets.1 start) meets.2
    rw [append_assoc, singleton_append] at later
    exact later

theorem Guarded.and {guard other : List (Event σ ι ω) → σ → ι → Prop}
    (h : Guarded step guard past s is) (h' : Guarded step other past s is) :
    Guarded step (fun past s i => guard past s i ∧ other past s i) past s is := by
  induction is generalizing past s with
  | nil => trivial
  | cons i rest ih => exact ⟨⟨h.1, h'.1⟩, ih h.2 h'.2⟩

variable {later : List (Event σ ι ω)}

theorem history_split (whole : history step s is = past ++ e :: later) :
    ∃ js i ks, is = js ++ i :: ks ∧ past = history step s js ∧ e = event step (run step s js) i ∧
      later = history step (step (run step s js) i).1 ks := by
  induction past generalizing s is with
  | nil =>
    cases is with
    | nil => cases whole
    | cons i ks =>
      cases whole
      exact ⟨[], i, ks, rfl, rfl, rfl, rfl⟩
  | cons first past ih =>
    cases is with
    | nil => cases whole
    | cons j is =>
      simp only [history, cons_append, List.cons.injEq] at whole
      obtain ⟨js, i, ks, rfl, rfl, rfl, rfl⟩ := ih whole.2
      exact ⟨j :: js, i, ks, rfl, by rw [← whole.1]; rfl, rfl, rfl⟩

/-- The rule for what is owed until it is spent: an event that owes it spends it, a later one does, or
it is owed at the end. -/
theorem owed_or_spent {Owed : σ → Prop} {Spent : Event σ ι ω → Prop} (keep : ∀ s i, P s → P (step s i).1)
    (stays : ∀ s i, P s → Owed s → Spent (event step s i) ∨ Owed (step s i).1) (start : P s)
    (whole : history step s is = past ++ e :: later)
    (arrives : P e.before → Spent (event step e.before e.input) ∨ Owed (step e.before e.input).1) :
    (∃ f ∈ e :: later, Spent f) ∨ Owed (run step s is) := by
  have from_ {s : σ} (start : P s) (owed : Owed s) (is : List ι) : (∃ f ∈ history step s is, Spent f) ∨ Owed (run step s is) := by
    induction is generalizing s with
    | nil => exact .inr owed
    | cons i is ih =>
      rcases stays s i start owed with spent | owed
      · exact .inl ⟨_, mem_cons_self, spent⟩
      · exact (ih (keep s i start) owed).imp_left (fun ⟨f, mem, spent⟩ => ⟨f, mem_cons_of_mem _ mem, spent⟩)
  obtain ⟨js, i, ks, rfl, rfl, rfl, rfl⟩ := history_split step whole
  have here : P (run step s js) := run_invariant step keep start js
  rw [run_append]
  rcases arrives here with spent | owed
  · exact .inl ⟨_, mem_cons_self, spent⟩
  · exact (from_ (keep _ i here) owed ks).imp_left (fun ⟨f, mem, spent⟩ => ⟨f, mem_cons_of_mem _ mem, spent⟩)

/-- The rule for a spacing: what is marked starts it, no step ends it early, and nothing is marked
inside it. -/
theorem spaced_apart (clock : σ → Nat) (Marked : Event σ ι ω → Prop) (Bound : σ → Nat → Prop) {gap : Nat}
    (ticks : ∀ s i, clock (step s i).1 = clock s + 1)
    (starts : ∀ s i, Marked (event step s i) → Bound (step s i).1 (clock (step s i).1 + gap))
    (keeps : ∀ s i b, b ≤ clock (step s i).1 + gap → Bound s b → Bound (step s i).1 b)
    (waits : ∀ s i b, Marked (event step s i) → Bound s b → b ≤ clock (step s i).1)
    {mid : List (Event σ ι ω)} {f : Event σ ι ω} (whole : history step s is = past ++ e :: (mid ++ f :: later))
    (first : Marked e) (second : Marked f) : gap ≤ mid.length + 1 := by
  obtain ⟨js, i, ks, -, -, rfl, rest⟩ := history_split step whole
  obtain ⟨js', i', ks', -, rfl, rfl, -⟩ := history_split step rest.symm
  have started := starts _ i first
  have reached (is : List ι) (s' : σ) (bound : Nat) (within : bound ≤ clock s' + gap) (held : Bound s' bound) :
      Bound (run step s' is) bound ∧ clock (run step s' is) = clock s' + is.length := by
    induction is generalizing s' with
    | nil => exact ⟨held, rfl⟩
    | cons i is ih =>
      have tick := ticks s' i
      have next := ih (step s' i).1 (by omega) (keeps s' i bound (by omega) held)
      refine ⟨next.1, next.2.trans ?_⟩
      rw [tick, length_cons]
      omega
  obtain ⟨held, clockIs⟩ := reached js' _ _ (Nat.le_refl _) started
  have due := waits _ i' _ second held
  have tick := ticks (run step (step (run step s js) i).1 js') i'
  have length : (history step (step (run step s js) i).1 js').length = js'.length := by
    rw [← length_map, history_inputs]
  omega

theorem snoc_split {α : Type*} {past before after : List α} {x h : α} (split : past ++ [x] = before ++ h :: after) :
    past = before ∧ x = h ∧ after = [] ∨ ∃ rest, after = rest ++ [x] ∧ past = before ++ h :: rest := by
  induction after using List.reverseRecOn with
  | nil =>
    obtain ⟨eq, last⟩ := append_inj' split rfl
    exact .inl ⟨eq, (List.cons.inj last).1, rfl⟩
  | append_singleton rest y _ =>
    rw [← cons_append, ← append_assoc] at split
    obtain ⟨eq, last⟩ := append_inj' split rfl
    exact .inr ⟨rest, by rw [(List.cons.inj last).1], eq⟩

/-- The last thing a run's events observed. -/
def latest {β : Type*} (observe : Event σ ι ω → Option β) (past : List (Event σ ι ω)) : Option β :=
  (past.filterMap observe).getLast?

theorem latest_snoc {β : Type*} (observe : Event σ ι ω → Option β) (past : List (Event σ ι ω))
    (e : Event σ ι ω) : latest observe (past ++ [e]) = (observe e).or (latest observe past) := by
  cases seen : observe e <;> simp [latest, seen]

end PlxNative.Transducer
