import PlxNative.Browse.RailShown

/-! A list that landed under the present key stands until the key moves, where a read is asked only
while none of its kind is out. -/
namespace PlxNative.Browse
open List Option Bool SecState Transducer
open Transducer (event history run history_split)
variable {ρ : Type} {kind : SecKind}

section
variable {w : RailWorld ρ}

def OneOut (w : RailWorld ρ) : Prop := ∀ directory, (w.out.filter (·.directory = directory)).length ≤ 1

theorem OneOut.sub {w' : RailWorld ρ} (one : OneOut w) (sub : w'.out.Sublist w.out) : OneOut w' :=
  fun directory => Nat.le_trans (sub.filter _).length_le (one directory)

variable {directory : Directory}

theorem ask_one (key : LettersKey) (one : OneOut w) (none_ : w.out.all (·.directory ≠ directory) = true) :
    OneOut (w.ask directory key) := by
  intro other
  simp only [RailWorld.ask, filter_append, length_append]
  by_cases eq : other = directory
  · subst eq
    have empty : w.out.filter (·.directory = other) = [] := by
      rw [filter_eq_nil_iff]
      intro read mem
      simpa using all_eq_true.mp none_ read mem
    rw [empty, length_nil, Nat.zero_add]
    exact length_filter_le _ _
  · have bound := one other
    simp only [filter_cons, Ne.symm eq]
    exact bound

theorem land_out (number : Nat) (apply : ListRead → SecState ρ) : (w.land number apply).1.out.Sublist w.out := by
  rcases land_cases (w := w) number apply with ⟨-, -, sub⟩ | ⟨read, -, -, -, -, -, -, out⟩
  · exact sub
  · rw [out]
    exact filter_sublist

theorem OneOut.step (one : OneOut w) (move : RailMove ρ) (fits : oneAtATime kind (event (RailWorld.step kind) w move) = true) :
    OneOut (RailWorld.step kind w move).1 := by
  cases move with
  | askLetters =>
    simp only [oneAtATime, event, and_eq_true] at fits
    exact ask_one _ one fits.2
  | askBands family =>
    simp only [oneAtATime, event, and_eq_true] at fits
    exact ask_one _ one fits.2
  | landLetters number list => exact one.sub (land_out _ _)
  | landBands number rail => exact one.sub (land_out _ _)
  | fail number => exact one.sub (land_out _ _)
  | setLibraryType libraryType =>
    simp only [RailWorld.step]
    split <;> exact one
  | _ => exact one

theorem OneOut.landed {number : Nat} {read : ListRead} (one : OneOut w) (apply : ListRead → SecState ρ)
    (found : w.find number = some read) (own : read.directory = directory) (taken : (w.land number apply).2 = true) :
    ∀ other ∈ (w.land number apply).1.out, other.directory ≠ directory := by
  rcases land_cases (w := w) number apply with ⟨refused, -⟩ | ⟨eq, mem, number_, found', -, -, -, out⟩
  · rw [refused] at taken
    cases taken
  · rw [found] at found'
    cases found'
    intro other left kind_
    rw [out] at left
    obtain ⟨was, apart⟩ := mem_filter.mp left
    have both : ∀ r ∈ w.out, r.directory = directory → r ∈ w.out.filter (·.directory = directory) :=
      fun r inside is_ => mem_filter.mpr ⟨inside, by simpa using is_⟩
    have bound := one directory
    obtain ⟨only, list⟩ := length_eq_one_iff.mp (Nat.le_antisymm bound
      (length_pos_of_mem (both read mem own)))
    have first := both read mem own
    have second := both other was kind_
    rw [list, mem_singleton] at first second
    rw [second, ← first, number_] at apart
    simp at apart

end
section
variable {w : RailWorld ρ} {directory : Directory}

/-- The landed list of a kind is the same one. -/
def SameFront : Directory → SecState ρ → SecState ρ → Prop
  | .letters, s, s' => s'.lettersFor = s.lettersFor ∧ s'.letters = s.letters
  | .bands, s, s' => s'.bands = s.bands

theorem SameFront.of {s s' : SecState ρ} (landed : s'.lettersFor = s.lettersFor) (letters : s'.letters = s.letters)
    (bands : s'.bands = s.bands) : SameFront directory s s' := by
  cases directory with
  | letters => exact ⟨landed, letters⟩
  | bands => exact bands

theorem SameFront.trans {s s' s'' : SecState ρ} (first : SameFront directory s s') (second : SameFront directory s' s'') :
    SameFront directory s s'' := by
  cases directory with
  | letters => exact ⟨second.1.trans first.1, second.2.trans first.2⟩
  | bands => exact Eq.trans second first

theorem land_front (number : Nat) (apply : ListRead → SecState ρ) (free : ∀ read ∈ w.out, read.directory ≠ directory)
    (keeps : ∀ read, read.directory ≠ directory → SameFront directory w.sec (apply read)) :
    SameFront directory w.sec (w.land number apply).1.sec := by
  rcases land_cases (w := w) number apply with ⟨-, eq, -⟩ | ⟨read, mem, -, -, -, -, eq, -⟩
  · rw [eq]
    exact .of rfl rfl rfl
  · rw [eq]
    exact keeps read (free read mem)

theorem step_front (free : ∀ read ∈ w.out, read.directory ≠ directory) (move : RailMove ρ)
    (type_ : (RailWorld.step kind w move).1.sec.libraryType = w.sec.libraryType) :
    SameFront directory w.sec (RailWorld.step kind w move).1.sec := by
  cases move with
  | setLibraryType other =>
    simp only [RailWorld.step] at type_ ⊢
    split
    · exact .of rfl rfl rfl
    · rename_i changed
      rw [if_neg changed] at type_
      exact absurd type_.symm changed
  | landLetters number list =>
    refine land_front number _ free (fun read other => ?_)
    cases found : read.directory with
    | letters =>
      cases directory with
      | letters => exact absurd found other
      | bands =>
        simp only [SecState.landLetters]
        split
        · split <;> rfl
        · rfl
    | bands => exact .of rfl rfl rfl
  | landBands number rail =>
    refine land_front number _ free (fun read other => ?_)
    cases found : read.directory with
    | letters => exact .of rfl rfl rfl
    | bands =>
      cases directory with
      | letters => exact ⟨rfl, rfl⟩
      | bands => exact absurd found other
  | fail number =>
    refine land_front number _ free (fun read other => ?_)
    cases read.directory <;> exact .of rfl rfl rfl
  | _ => exact .of rfl rfl rfl

/-- The present key of a kind has a list on hand. -/
def Satisfied (kind : SecKind) (s : SecState ρ) : Directory → Prop
  | .letters => s.lettersCurrent = true
  | .bands => ∀ family, s.railFamily kind = some family → (s.bandsVerdictFor family).isSome = true

theorem step_free (free : ∀ read ∈ w.out, read.directory ≠ directory) (satisfied : Satisfied kind w.sec directory) (move : RailMove ρ)
    (fits : oneAtATime kind (event (RailWorld.step kind) w move) = true) :
    ∀ read ∈ (RailWorld.step kind w move).1.out, read.directory ≠ directory := by
  cases move with
  | setLibraryType other =>
    simp only [RailWorld.step]
    split <;> exact free
  | askLetters =>
    refine forall_mem_append.mpr ⟨free, forall_mem_singleton.mpr ?_⟩
    rintro rfl
    simp only [oneAtATime, event, and_eq_true, lettersOwed] at fits
    rw [show w.sec.lettersCurrent = true from satisfied] at fits
    cases fits.1.1
  | askBands family =>
    refine forall_mem_append.mpr ⟨free, forall_mem_singleton.mpr ?_⟩
    rintro rfl
    simp only [oneAtATime, event, and_eq_true, bandsOwedFor, isNone_iff_eq_none] at fits
    have some_ := satisfied family (of_decide_eq_true fits.1.1)
    rw [fits.1.2.1] at some_
    cases some_
  | landLetters number list => exact fun read mem => free read ((land_out number _).subset mem)
  | landBands number rail => exact fun read mem => free read ((land_out number _).subset mem)
  | fail number => exact fun read mem => free read ((land_out number _).subset mem)
  | _ => exact free

end
section
variable {w : RailWorld ρ} {directory : Directory} {key : LettersKey}

/-- The landed list of a kind is of the present key, and nothing of the kind is out. -/
structure Standing (kind : SecKind) (directory : Directory) (key : LettersKey) (landed : SecState ρ) (w : RailWorld ρ) : Prop where
  front : SameFront directory landed w.sec
  free : ∀ read ∈ w.out, read.directory ≠ directory
  present : presentKey kind w.sec directory = some key
  type_ : w.sec.libraryType = landed.libraryType

/-- A state has a key's list as the landed one of a kind. -/
def FrontKey (key : LettersKey) (s : SecState ρ) : Directory → Prop
  | .letters => s.lettersFor = some key
  | .bands => ∃ rail, s.bands = some (key, rail)

variable {s : SecState ρ}

theorem FrontKey.same {s' : SecState ρ} (front : FrontKey key s directory) (eq : SameFront directory s s') :
    FrontKey key s' directory := by
  cases directory with
  | letters => exact eq.1.trans front
  | bands =>
    obtain ⟨rail, has⟩ := front
    exact ⟨rail, Eq.trans eq has⟩

theorem front_verdict {family : BandFamily} {rail : Option ρ} (front : s.bands = some (s.bandsKey family, rail)) :
    s.bandsVerdictFor family = some rail := by
  simp [bandsVerdictFor, bandsSlots, front]

theorem FrontKey.satisfied (front : FrontKey key s directory) (present : presentKey kind s directory = some key) :
    Satisfied kind s directory := by
  cases directory with
  | letters =>
    cases present
    simp only [Satisfied, lettersCurrent, shownLetters]
    rw [if_pos (show s.lettersFor = some s.lettersKey from front)]
    rfl
  | bands =>
    obtain ⟨rail, has⟩ := front
    intro family found
    simp only [presentKey, found, map_some, Option.some.injEq] at present
    rw [front_verdict (present.symm ▸ has)]
    rfl

theorem Standing.step {landed : SecState ρ} (standing : Standing kind directory key landed w) (front : FrontKey key landed directory)
    (move : RailMove ρ) (fits : oneAtATime kind (event (RailWorld.step kind) w move) = true)
    (present : presentKey kind (RailWorld.step kind w move).1.sec directory = some key)
    (type_ : (RailWorld.step kind w move).1.sec.libraryType = landed.libraryType) :
    Standing kind directory key landed (RailWorld.step kind w move).1 := by
  have satisfied := (front.same standing.front).satisfied standing.present
  exact ⟨standing.front.trans (step_front standing.free move (type_.trans standing.type_.symm)),
    step_free standing.free satisfied move fits, present, type_⟩

theorem landed_standing {landed : RailStep ρ} {move : RailMove ρ} (one : OneOut w) (number : Nat) (apply : ListRead → SecState ρ)
    (stepped : landed = event (RailWorld.step kind) w move) (moves : RailWorld.step kind w move = w.land number apply)
    (present : LandedPresent kind directory landed number) :
    ∃ read, read.directory = directory ∧ presentKey kind landed.after.sec directory = some read.key ∧ landed.after.sec = apply read ∧
      Standing kind directory read.key landed.after.sec landed.after := by
  subst stepped
  obtain ⟨taken, read, found, own, key⟩ := present
  simp only [event, moves] at taken found key ⊢
  have free := one.landed apply found own taken
  rcases land_cases (w := w) number apply with ⟨refused, -⟩ | ⟨read', -, -, found', -, -, eq, -⟩
  · rw [refused] at taken
    cases taken
  · rw [found] at found'
    cases found'
    exact ⟨read, own, key, eq, .of rfl rfl rfl, free, key, rfl⟩

theorem new_one : OneOut (RailWorld.new : RailWorld ρ) := fun _ => Nat.zero_le 1

theorem stands_since {moves : List (RailMove ρ)} {before since : List (RailStep ρ)} {landing : RailStep ρ} {number : Nat}
    {put : RailMove ρ} {write : ListRead → SecState ρ → SecState ρ}
    (whole : history (RailWorld.step kind) .new moves = before ++ landing :: since)
    (fits : ∀ x ∈ history (RailWorld.step kind) .new moves, oneAtATime kind x = true) (input : landing.input = put)
    (writes : ∀ v : RailWorld ρ, RailWorld.step kind v put = v.land number (write · v.sec))
    (fronts : ∀ (read : ListRead) s, read.directory = directory → FrontKey read.key (write read s) directory)
    (present : LandedPresent kind directory landing number) (unmoved : Unmoved kind directory landing since) :
    ∃ read s, read.directory = directory ∧ presentKey kind (run (RailWorld.step kind) .new moves).sec directory = some read.key ∧
      SameFront directory (write read s) (run (RailWorld.step kind) .new moves).sec := by
  obtain ⟨earlier, move, later, rfl, rfl, rfl, rfl⟩ := history_split _ whole
  rw [whole] at fits
  cases input
  have one : OneOut (run (RailWorld.step kind) .new earlier) :=
    run_holds _ (P := OneOut) (fun v move fits one => OneOut.step one move fits) new_one
      (fun x mem => fits x (mem_append_left _ mem))
  obtain ⟨read, own, key, eq, standing⟩ := landed_standing one number _ rfl (writes _) present
  have front := fronts read (run (RailWorld.step kind) .new earlier).sec own
  have fitting : ∀ x ∈ history (RailWorld.step kind) (RailWorld.step kind (run (RailWorld.step kind) .new earlier) move).1 later,
      oneAtATime kind x = true ∧ presentKey kind x.after.sec directory = some read.key ∧
        x.after.sec.libraryType = (RailWorld.step kind (run (RailWorld.step kind) .new earlier) move).1.sec.libraryType :=
    fun x mem => ⟨fits x (mem_append_right _ (mem_cons_of_mem _ mem)), (unmoved x mem).1.trans key, (unmoved x mem).2⟩
  have stood := run_holds _
    (P := Standing kind directory read.key (RailWorld.step kind (run (RailWorld.step kind) .new earlier) move).1.sec)
    (fun v move fits standing => Standing.step standing (eq ▸ front) move fits.1 fits.2.1 fits.2.2) standing fitting
  refine ⟨read, (run (RailWorld.step kind) .new earlier).sec, own, ?_, ?_⟩
  · rw [run_append]
    exact stood.present
  · rw [run_append, ← eq]
    exact stood.front

end
section
variable {moves : List (RailMove ρ)}

variable {list : List (Text × Int)} {s : SecState ρ}

theorem shown_cases (shown : s.shownLetters = some list) :
    s.lettersFor = some s.lettersKey ∧ s.letters = list ∨ s.lettersKept = some (s.lettersKey, list) := by
  unfold shownLetters at shown
  split at shown
  · rename_i front
    exact .inl ⟨front, Option.some.inj shown⟩
  · obtain ⟨⟨key, list'⟩, found, rfl⟩ := Option.map_eq_some_iff.mp shown
    obtain ⟨kept, eq⟩ := Option.filter_eq_some_iff.mp found
    exact .inr (of_decide_eq_true eq ▸ kept)

theorem shown_letters_answer (bounded : memberships (history (RailWorld.step kind) .new moves) +
      viewings (history (RailWorld.step kind) .new moves) < 2 ^ 32)
    (shown : (run (RailWorld.step kind) .new moves).sec.shownLetters = some list) :
    AnswerOf (history (RailWorld.step kind) .new moves) .askLetters (RailMove.landLetters · list)
      (run (RailWorld.step kind) .new moves).sec.appliedTerms.1
      (fun s => s.appliedTerms = (run (RailWorld.step kind) .new moves).sec.appliedTerms) := by
  have kept : RailKept _ (run (RailWorld.step kind) .new moves) := run_kept moves
  rcases shown_cases shown with ⟨front, rfl⟩ | second
  · exact (kept.holds.letters _ front).letters_answer kept.counted bounded
  · exact (kept.holds.kept _ _ second).letters_answer kept.counted bounded

variable {family : BandFamily}

theorem slot_answer (bounded : memberships (history (RailWorld.step kind) .new moves) +
      viewings (history (RailWorld.step kind) .new moves) < 2 ^ 32) {slot : LettersKey × Option ρ}
    (mem : slot ∈ (run (RailWorld.step kind) .new moves).sec.bandsSlots)
    (eq : { slot.1 with today := (run (RailWorld.step kind) .new moves).sec.keyToday family } =
      (run (RailWorld.step kind) .new moves).sec.bandsKey family) :
    AnswerOf (history (RailWorld.step kind) .new moves) (.askBands family) (RailMove.landBands · slot.2)
      (sensitive (some family) (run (RailWorld.step kind) .new moves).sec.appliedTerms.1)
      (fun s => s.appliedTerms = (run (RailWorld.step kind) .new moves).sec.appliedTerms ∧ s.keyToday family = slot.1.today) := by
  have kept : RailKept _ (run (RailWorld.step kind) .new moves) := run_kept moves
  exact (kept.holds.bands slot mem).bands_answer kept.counted bounded eq

variable {rail : Option ρ}

theorem verdict_slot (verdict : s.bandsVerdictFor family = some rail) :
    (s.bandsKey family, rail) ∈ s.bandsSlots := by
  obtain ⟨⟨key, rail'⟩, found, rfl⟩ := Option.map_eq_some_iff.mp verdict
  have eq : key = s.bandsKey family := by simpa using List.find?_some found
  exact eq ▸ List.mem_of_find?_eq_some found

theorem verdict_answer (bounded : memberships (history (RailWorld.step kind) .new moves) +
      viewings (history (RailWorld.step kind) .new moves) < 2 ^ 32)
    (verdict : (run (RailWorld.step kind) .new moves).sec.bandsVerdictFor family = some rail) :
    AnswerOf (history (RailWorld.step kind) .new moves) (.askBands family) (RailMove.landBands · rail)
      (sensitive (some family) (run (RailWorld.step kind) .new moves).sec.appliedTerms.1)
      (fun s => s.appliedTerms = (run (RailWorld.step kind) .new moves).sec.appliedTerms ∧
        s.keyToday family = (run (RailWorld.step kind) .new moves).sec.keyToday family) :=
  slot_answer bounded (verdict_slot verdict) rfl

theorem on_screen_cases (onScreen : s.bandsOnScreen kind = some rail) :
    ∃ family, s.railFamily kind = some family ∧ (s.bandsVerdictFor family = some rail ∨ s.bandsVerdictFor family = none ∧
      ∃ slot ∈ s.bandsSlots, slot.2 = rail ∧ slot.1.isButForTheDay (s.bandsKey family) = true) := by
  obtain ⟨family, found, or_⟩ := Option.bind_eq_some_iff.mp onScreen
  refine ⟨family, found, ?_⟩
  rcases Option.or_eq_some_iff.mp or_ with verdict | ⟨none_, other⟩
  · exact .inl verdict
  · obtain ⟨slot, at_, rfl⟩ := Option.map_eq_some_iff.mp other
    have eq := List.find?_some at_
    exact .inr ⟨none_, slot, List.mem_of_find?_eq_some at_, rfl, eq⟩

variable {before since : List (RailStep ρ)}
variable {landing : RailStep ρ} {number : Nat}

theorem letters_stand (whole : history (RailWorld.step kind) .new moves = before ++ landing :: since)
    (fits : ∀ x ∈ history (RailWorld.step kind) .new moves, oneAtATime kind x = true) (input : landing.input = .landLetters number list)
    (present : LandedPresent kind .letters landing number) (unmoved : Unmoved kind .letters landing since) :
    (run (RailWorld.step kind) .new moves).sec.shownLetters = some list := by
  have written : ∀ (read : ListRead) (s : SecState ρ), read.directory = .letters →
      (s.landLetters read.key list).lettersFor = some read.key ∧ (s.landLetters read.key list).letters = list := by
    intro read s _
    unfold SecState.landLetters
    split
    · split <;> exact ⟨rfl, rfl⟩
    · exact ⟨rfl, rfl⟩
  have fronts : ∀ (read : ListRead) (s : SecState ρ), read.directory = .letters →
      FrontKey read.key (match read.directory with
        | .letters => s.landLetters read.key list
        | .bands => s) .letters := by
    intro read s own
    rw [own]
    exact (written read s own).1
  obtain ⟨read, s, own, key, front⟩ := stands_since whole fits input (fun _ => rfl) fronts present unmoved
  simp only [own] at front
  obtain ⟨for_, letters⟩ := written read s own
  have present_ : some read.key = some (run (RailWorld.step kind) .new moves).sec.lettersKey := key.symm
  rw [shownLetters, front.1, for_, front.2, letters, if_pos present_]

theorem bands_stand (whole : history (RailWorld.step kind) .new moves = before ++ landing :: since)
    (fits : ∀ x ∈ history (RailWorld.step kind) .new moves, oneAtATime kind x = true) (input : landing.input = .landBands number rail)
    (present : LandedPresent kind .bands landing number) (unmoved : Unmoved kind .bands landing since) :
    (run (RailWorld.step kind) .new moves).sec.bandsOnScreen kind = some rail := by
  have fronts : ∀ (read : ListRead) (s : SecState ρ), read.directory = .bands →
      FrontKey read.key (match read.directory with
        | .letters => s
        | .bands => s.landBands read.key rail) .bands := by
    intro read s own
    rw [own]
    exact ⟨rail, rfl⟩
  obtain ⟨read, s, own, key, front⟩ := stands_since whole fits input (fun _ => rfl) fronts present unmoved
  simp only [own] at front
  obtain ⟨family, found, eq⟩ := Option.map_eq_some_iff.mp key
  have first : (run (RailWorld.step kind) .new moves).sec.bands = some (read.key, rail) := front
  rw [bandsOnScreen, found, bind_some, front_verdict (eq.symm ▸ first), some_or]

/-- In every run of a section, what the rail shows is an answer that was asked under the terms of
now and was overtaken by nothing that its counts move with. -/
theorem rail_counts_what_is_listed (kind : SecKind) (moves : List (RailMove ρ)) (bounded : memberships (history (RailWorld.step kind) .new moves) +
      viewings (history (RailWorld.step kind) .new moves) < 2 ^ 32) :
    let past := history (RailWorld.step kind) .new moves
    let now := (run (RailWorld.step kind) .new moves).sec
    (∀ list, now.shownLetters = some list →
      AnswerOf past .askLetters (RailMove.landLetters · list) now.appliedTerms.1 (fun s => s.appliedTerms = now.appliedTerms)) ∧
    (∀ family rail, now.bandsVerdictFor family = some rail →
      AnswerOf past (.askBands family) (RailMove.landBands · rail) (sensitive (some family) now.appliedTerms.1)
        (fun s => s.appliedTerms = now.appliedTerms ∧ s.keyToday family = now.keyToday family)) ∧
    (∀ rail, now.bandsOnScreen kind = some rail → ∃ family, now.railFamily kind = some family ∧
      (now.bandsVerdictFor family = some rail ∨
        now.bandsVerdictFor family = none ∧ family.basis.isSome = true ∧ ∃ other today, now.today = some today ∧ other ≠ today ∧
          AnswerOf past (.askBands family) (RailMove.landBands · rail) (sensitive (some family) now.appliedTerms.1)
            (fun s => s.appliedTerms = now.appliedTerms ∧ s.today = some other))) ∧
    (∀ family rail, now.railFamily kind = some family → now.bandsVerdictFor family = some rail →
      now.bandsOnScreen kind = some rail) ∧
    ((∀ x ∈ past, oneAtATime kind x = true) → ∀ before landing since, past = before ++ landing :: since →
      (∀ number list, landing.input = .landLetters number list → LandedPresent kind .letters landing number →
        Unmoved kind .letters landing since → now.shownLetters = some list) ∧
      (∀ number rail, landing.input = .landBands number rail → LandedPresent kind .bands landing number →
        Unmoved kind .bands landing since → now.bandsOnScreen kind = some rail)) := by
  intro past now
  refine ⟨fun list => shown_letters_answer bounded, fun family rail => verdict_answer bounded, fun rail onScreen => ?_,
    fun family rail found verdict => ?_, fun fits before landing since whole => ⟨fun number list input present unmoved => ?_,
      fun number rail input present unmoved => ?_⟩⟩
  · obtain ⟨family, found, verdict | ⟨none_, slot, member, rfl, same⟩⟩ := on_screen_cases onScreen
    · exact ⟨family, found, .inl verdict⟩
    · simp only [LettersKey.isButForTheDay, and_eq_true, decide_eq_true_eq] at same
      obtain ⟨⟨⟨some_, somes⟩, differ⟩, same⟩ := same
      have dated : (now.keyToday family).isSome = true := somes
      have calendar : family.basis.isSome = true := by
        cases basis : family.basis with
        | some _ => rfl
        | none => simp [keyToday, basis] at dated
      obtain ⟨other, other_⟩ := Option.isSome_iff_exists.mp some_
      have today_ : now.keyToday family = now.today := by rw [keyToday, if_pos calendar]
      obtain ⟨today, is⟩ := Option.isSome_iff_exists.mp (today_ ▸ dated)
      have answer := slot_answer bounded member same
      refine ⟨family, found, .inr ⟨none_, calendar, other, today, is, ?_, ?_⟩⟩
      · rintro rfl
        exact differ (other_.trans ((today_.trans is).symm))
      · obtain ⟨before, asking, since, whole, input, ⟨terms, day⟩, rest⟩ := answer
        refine ⟨before, asking, since, whole, input, ⟨terms, ?_⟩, rest⟩
        rw [keyToday, if_pos calendar] at day
        exact day.trans other_
  · rw [bandsOnScreen, found, bind_some, verdict, some_or]
  · exact letters_stand whole fits input present unmoved
  · exact bands_stand whole fits input present unmoved

theorem rail_counts_what_is_listed_once :
    AnswerOf (history (RailWorld.step (ρ := Unit) .movie) .new [.askLetters, .viewingChanged, .landLetters 0 [(['A'], 3)]])
      .askLetters (RailMove.landLetters · [(['A'], 3)]) false (fun s => s.appliedTerms = (false, none)) :=
  (rail_counts_what_is_listed (ρ := Unit) .movie [.askLetters, .viewingChanged, .landLetters 0 [(['A'], 3)]] (by decide)).1
    [(['A'], 3)] (by decide)

def retyped : List (RailStep Unit) :=
  history (RailWorld.step .show_) .new [.askLetters, .landLetters 0 [(['A'], 3)], .setLibraryType .seasons]

def overtaken : List (RailStep Unit) :=
  history (RailWorld.step .movie) .new [.setUnwatched true, .askLetters, .setUnwatched false, .setGenre (some ['g']), .askLetters,
    .setGenre none, .askLetters, .landLetters 2 [(['A'], 3)], .landLetters 0 [], .landLetters 1 []]

/-- A change of type drops a list whose key is the present one still, and answers of older terms
that come one after the other push it out of both places. -/
theorem landed_list_is_lost :
    retyped.all (oneAtATime .show_) = true ∧
      retyped.map (·.after.sec.lettersKey) = List.replicate 3 ⟨none, none, false, none, 0⟩ ∧
      retyped.map (·.after.sec.shownLetters) = [none, some [(['A'], 3)], none] ∧
      (overtaken.drop 7).map (·.after.sec.lettersKey) = List.replicate 3 ⟨none, none, false, none, 0⟩ ∧
      (overtaken.drop 7).map (·.after.sec.shownLetters) = [some [(['A'], 3)], some [(['A'], 3)], none] := by
  decide +kernel

end
end PlxNative.Browse
