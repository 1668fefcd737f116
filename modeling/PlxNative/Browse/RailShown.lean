import PlxNative.Browse.RailReads

/-! What the rail shows counted the listing that the grid shows: each list on hand is an answer
that came under its key, and a key that is still the present one has been overtaken by nothing. -/
namespace PlxNative.Browse
open List Option SecState
open Transducer (Event event history history_invariant run)
variable {ρ : Type} {kind : SecKind}

section
variable {s : SecState ρ}

structure SecState.Holds (L : LettersKey → List (Text × Int) → Prop) (B : LettersKey → Option ρ → Prop) (s : SecState ρ) : Prop where
  letters : ∀ key, s.lettersFor = some key → L key s.letters
  kept : ∀ key list, s.lettersKept = some (key, list) → L key list
  bands : ∀ slot ∈ s.bandsSlots, B slot.1 slot.2

variable {L L' : LettersKey → List (Text × Int) → Prop} {B B' : LettersKey → Option ρ → Prop}

theorem SecState.Holds.mono (holds : s.Holds L B) (letters : ∀ key list, L key list → L' key list)
    (bands : ∀ key rail, B key rail → B' key rail) : s.Holds L' B' :=
  ⟨fun key eq => letters key _ (holds.letters key eq), fun key list eq => letters key list (holds.kept key list eq),
    fun slot mem => bands _ _ (holds.bands slot mem)⟩

variable {key : LettersKey}

theorem SecState.Holds.landLetters (holds : s.Holds L B) {list : List (Text × Int)} (new : L key list) :
    (s.landLetters key list).Holds L B := by
  have filtered : ∀ k l, s.lettersKept.filter (fun kept => kept.1 ≠ key) = some (k, l) → L k l := by
    intro k l eq
    exact holds.kept k l (eq_some_of_filter_eq_some eq)
  unfold SecState.landLetters
  split
  · rename_i previous found
    split
    · refine ⟨fun k eq => Option.some.inj eq ▸ new, fun k l eq => ?_, holds.bands⟩
      split at eq <;> cases eq
      exact holds.letters _ found
    · exact ⟨fun k eq => Option.some.inj eq ▸ new, filtered, holds.bands⟩
  · exact ⟨fun k eq => Option.some.inj eq ▸ new, filtered, holds.bands⟩

theorem SecState.Holds.landBands (holds : s.Holds L B) {rail : Option ρ} (new : B key rail) :
    (s.landBands key rail).Holds L B := by
  have landed : ∀ slot, s.bands = some slot → B slot.1 slot.2 :=
    fun slot eq => holds.bands slot (mem_append_left _ (by rw [eq]; exact mem_cons_self))
  have kept : ∀ slot, s.bandsKept = some slot → B slot.1 slot.2 :=
    fun slot eq => holds.bands slot (mem_append_right _ (by rw [eq]; exact mem_cons_self))
  refine ⟨holds.letters, holds.kept, fun slot mem => ?_⟩
  rcases mem_append.mp mem with first | second
  · rw [Option.mem_toList.mp first |> Option.some.inj |>.symm]
    exact new
  · have found := eq_some_of_filter_eq_some (Option.mem_toList.mp second)
    split at found
    · rename_i previous eq
      split at found
      · exact kept slot found
      · split at found
        · split at found <;> cases found
          exact landed _ eq
        · exact kept slot (eq_some_of_filter_eq_some found)
    · exact kept slot (eq_some_of_filter_eq_some found)

theorem SecState.Holds.forgetLetters : s.forgetLetters.Holds L B := ⟨nofun, nofun, nofun⟩

end
section
variable {past : List (RailStep ρ)} {x : RailStep ρ}

/-- The generations of a state are those of its past. -/
def Counted (past : List (RailStep ρ)) (s : SecState ρ) : Prop :=
  s.lettersGen = memberships past % 2 ^ 32 ∧ s.viewingGen = viewings past % 2 ^ 32

/-- A read was asked under a key, and this came since. -/
def AskedAs (past : List (RailStep ρ)) (directory : Directory) (number : Nat) (key : LettersKey) (since : List (RailStep ρ)) : Prop :=
  ∃ before asking, past = before ++ asking :: since ∧ asking.before.asked = number ∧ Counted before asking.before.sec ∧
    match directory with
    | .letters => asking.input = .askLetters ∧ key = asking.before.sec.lettersKey
    | .bands => ∃ family, asking.input = .askBands family ∧ key = asking.before.sec.bandsKey family

variable {directory : Directory} {key : LettersKey}
variable {number : Nat} {since : List (RailStep ρ)}

theorem AskedAs.snoc
    (asked : AskedAs past directory number key since) : AskedAs (past ++ [x]) directory number key (since ++ [x]) := by
  obtain ⟨before, asking, rfl, rest⟩ := asked
  exact ⟨before, asking, by simp, rest⟩

def Came (past : List (RailStep ρ)) (directory : Directory) (key : LettersKey) (landing : Nat → RailMove ρ) : Prop :=
  ∃ number since, AskedAs past directory number key since ∧ ∃ y ∈ since, y.input = landing number ∧ y.answer = true

variable {landing : Nat → RailMove ρ}

theorem Came.snoc (came : Came past directory key landing) : Came (past ++ [x]) directory key landing := by
  obtain ⟨number, since, asked, y, mem, landed⟩ := came
  exact ⟨number, since ++ [x], asked.snoc, y, mem_append_left _ mem, landed⟩

theorem AskedAs.came
    (asked : AskedAs past directory number key since) (lands : x.input = landing number) (taken : x.answer = true) :
    Came (past ++ [x]) directory key landing :=
  ⟨number, since ++ [x], asked.snoc, x, mem_append_right _ mem_cons_self, lands, taken⟩

end

section
variable {past : List (RailStep ρ)} {w : RailWorld ρ}

abbrev CameLetters (past : List (RailStep ρ)) (key : LettersKey) (list : List (Text × Int)) : Prop :=
  Came past .letters key (RailMove.landLetters · list)

abbrev CameBands (past : List (RailStep ρ)) (key : LettersKey) (rail : Option ρ) : Prop :=
  Came past .bands key (RailMove.landBands · rail)

structure RailKept (past : List (RailStep ρ)) (w : RailWorld ρ) : Prop where
  counted : Counted past w.sec
  out : ∀ read ∈ w.out, ∃ since, AskedAs past read.directory read.number read.key since
  holds : w.sec.Holds (CameLetters past) (CameBands past)

theorem new_kept : RailKept ([] : List (RailStep ρ)) .new :=
  ⟨⟨rfl, rfl⟩, fun _ mem => absurd mem not_mem_nil, nofun, nofun, fun _ mem => absurd mem not_mem_nil⟩

theorem RailKept.holds_snoc (kept : RailKept past w) (x : RailStep ρ) :
    w.sec.Holds (CameLetters (past ++ [x])) (CameBands (past ++ [x])) :=
  kept.holds.mono (fun _ _ came => came.snoc) (fun _ _ came => came.snoc)

theorem RailKept.out_snoc (kept : RailKept past w) (x : RailStep ρ) :
    ∀ read ∈ w.out, ∃ since, AskedAs (past ++ [x]) read.directory read.number read.key since := by
  intro read mem
  obtain ⟨since, asked⟩ := kept.out read mem
  exact ⟨since ++ [x], asked.snoc⟩

theorem memberships_snoc (past : List (RailStep ρ)) (x : RailStep ρ) : memberships (past ++ [x]) = memberships past + membership x := by
  simp [memberships]

theorem viewings_snoc (past : List (RailStep ρ)) (x : RailStep ρ) : viewings (past ++ [x]) = viewings past + viewing x := by
  simp [viewings]

variable {x : RailStep ρ} {s : SecState ρ}

theorem Counted.still (counted : Counted past w.sec) (membership_ : membership x = 0)
    (viewing_ : viewing x = 0) (letters : s.lettersGen = w.sec.lettersGen) (views : s.viewingGen = w.sec.viewingGen) :
    Counted (past ++ [x]) s := by
  rw [Counted, memberships_snoc, viewings_snoc, membership_, viewing_, letters, views]
  exact counted

theorem land_cases (number : Nat) (apply : ListRead → SecState ρ) :
    ((w.land number apply).2 = false ∧ (w.land number apply).1.sec = w.sec ∧ (w.land number apply).1.out.Sublist w.out) ∨
      ∃ read ∈ w.out, read.number = number ∧ w.find number = some read ∧ read.libraryType = w.sec.libraryType ∧
        (w.land number apply).2 = true ∧ (w.land number apply).1.sec = apply read ∧
        (w.land number apply).1.out = w.out.filter (·.number ≠ number) := by
  unfold RailWorld.land
  split
  · exact .inl ⟨rfl, rfl, .refl _⟩
  · rename_i read found
    have own : read.number = number := by simpa using List.find?_some found
    split
    · exact .inl ⟨rfl, rfl, filter_sublist⟩
    · rename_i eq
      exact .inr ⟨read, List.mem_of_find?_eq_some found, own, found, not_not.mp eq, rfl, rfl, rfl⟩

theorem landLetters_gens (s : SecState ρ) (key : LettersKey) (list : List (Text × Int)) :
    (s.landLetters key list).lettersGen = s.lettersGen ∧ (s.landLetters key list).viewingGen = s.viewingGen := by
  unfold SecState.landLetters
  split
  · split <;> exact ⟨rfl, rfl⟩
  · exact ⟨rfl, rfl⟩

theorem RailKept.land (kept : RailKept past w) (number : Nat) (apply : ListRead → SecState ρ)
    (membership_ : membership x = 0) (viewing_ : viewing x = 0)
    (gens : ∀ read, (apply read).lettersGen = w.sec.lettersGen ∧ (apply read).viewingGen = w.sec.viewingGen)
    (holds : ∀ read since, AskedAs past read.directory read.number read.key since → read.number = number →
      (w.land number apply).2 = true → (apply read).Holds (CameLetters (past ++ [x])) (CameBands (past ++ [x]))) :
    RailKept (past ++ [x]) (w.land number apply).1 := by
  rcases land_cases (w := w) number apply with ⟨-, eq, sub⟩ | ⟨read, mem, own, -, -, taken, eq, out⟩
  · refine ⟨?_, fun read mem => kept.out_snoc x read (sub.subset mem), ?_⟩
    · rw [eq]
      exact kept.counted.still membership_ viewing_ rfl rfl
    · rw [eq]
      exact kept.holds_snoc x
  · obtain ⟨since, asked⟩ := kept.out read mem
    refine ⟨?_, fun other other_ => ?_, ?_⟩
    · rw [eq]
      exact kept.counted.still membership_ viewing_ (gens read).1 (gens read).2
    · rw [out] at other_
      exact kept.out_snoc x other (mem_of_mem_filter other_)
    · rw [eq]
      exact holds read since asked own taken

theorem bump_counts {gen n : Nat} (counted : gen = n % 2 ^ 32) : bump gen = (n + 1) % 2 ^ 32 := by
  unfold bump
  omega

theorem resetListing_gens (s : SecState ρ) {n : Nat} (counted : s.lettersGen = n % 2 ^ 32) :
    s.resetListing.lettersGen = (n + if s.membershipStale || s.relist then 1 else 0) % 2 ^ 32 := by
  unfold SecState.resetListing
  cases flagged : s.membershipStale || s.relist with
  | true => exact bump_counts counted
  | false => exact counted

theorem RailKept.bumped (kept : RailKept past w)
    (letters : s.lettersGen = (memberships past + membership x) % 2 ^ 32)
    (views : s.viewingGen = (viewings past + viewing x) % 2 ^ 32)
    (lists : s.letters = w.sec.letters ∧ s.lettersFor = w.sec.lettersFor ∧ s.lettersKept = w.sec.lettersKept ∧
      s.bands = w.sec.bands ∧ s.bandsKept = w.sec.bandsKept) : RailKept (past ++ [x]) (w.edit s) := by
  obtain ⟨letters_, for_, kept_, bands, bandsKept⟩ := lists
  have holds := kept.holds_snoc x
  refine ⟨?_, kept.out_snoc x, fun key eq => ?_, fun key list eq => holds.kept key list (kept_ ▸ eq), fun slot mem => ?_⟩
  · rw [Counted, memberships_snoc, viewings_snoc]
    exact ⟨letters, views⟩
  · show CameLetters _ key s.letters
    rw [letters_]
    exact holds.letters key (for_ ▸ eq)
  · refine holds.bands slot ?_
    have mem : slot ∈ s.bands.toList ++ s.bandsKept.toList := mem
    rwa [bands, bandsKept] at mem

theorem RailKept.edit (kept : RailKept past w) (membership_ : membership x = 0) (viewing_ : viewing x = 0)
    (gens : s.lettersGen = w.sec.lettersGen ∧ s.viewingGen = w.sec.viewingGen)
    (lists : s.letters = w.sec.letters ∧ s.lettersFor = w.sec.lettersFor ∧ s.lettersKept = w.sec.lettersKept ∧
      s.bands = w.sec.bands ∧ s.bandsKept = w.sec.bandsKept) : RailKept (past ++ [x]) (w.edit s) := by
  refine kept.bumped ?_ ?_ lists
  · rw [gens.1, membership_]
    exact kept.counted.1
  · rw [gens.2, viewing_]
    exact kept.counted.2

theorem RailKept.step (kept : RailKept past w) (move : RailMove ρ) :
    RailKept (past ++ [event (RailWorld.step kind) w move]) (RailWorld.step kind w move).1 := by
  cases move with
  | setSort | setGenre | setUnwatched | flagStale | flagRelist | noteToday | tickLetters | tickBands =>
    exact kept.edit rfl rfl ⟨rfl, rfl⟩ ⟨rfl, rfl, rfl, rfl, rfl⟩
  | setLibraryType libraryType =>
    simp only [RailWorld.step]
    split
    · exact kept.edit rfl rfl ⟨rfl, rfl⟩ ⟨rfl, rfl, rfl, rfl, rfl⟩
    · exact ⟨kept.counted.still rfl rfl rfl rfl, kept.out_snoc _, .forgetLetters⟩
  | resetListing =>
    refine kept.bumped ?_ kept.counted.2 ⟨rfl, rfl, rfl, rfl, rfl⟩
    exact resetListing_gens w.sec kept.counted.1
  | membershipChanged =>
    refine kept.bumped ?_ kept.counted.2 ⟨rfl, rfl, rfl, rfl, rfl⟩
    have counted := resetListing_gens { w.sec with lettersGen := bump w.sec.lettersGen } (bump_counts kept.counted.1)
    rw [Nat.add_assoc] at counted
    exact counted
  | viewingChanged =>
    exact kept.bumped kept.counted.1 (bump_counts kept.counted.2) ⟨rfl, rfl, rfl, rfl, rfl⟩
  | askLetters =>
    refine ⟨kept.counted.still rfl rfl rfl rfl, fun read mem => ?_, kept.holds_snoc _⟩
    rcases mem_append.mp mem with old | now
    · exact kept.out_snoc _ read old
    · rw [mem_singleton.mp now]
      exact ⟨[], past, _, rfl, rfl, kept.counted, rfl, rfl⟩
  | askBands family =>
    refine ⟨kept.counted.still rfl rfl rfl rfl, fun read mem => ?_, kept.holds_snoc _⟩
    rcases mem_append.mp mem with old | now
    · exact kept.out_snoc _ read old
    · rw [mem_singleton.mp now]
      exact ⟨[], past, _, rfl, rfl, kept.counted, family, rfl, rfl⟩
  | landLetters number list =>
    refine kept.land number _ rfl rfl (fun read => ?_) (fun read since asked own taken => ?_)
    · cases read.directory with
      | letters => exact landLetters_gens _ _ _
      | bands => exact ⟨rfl, rfl⟩
    · cases directory : read.directory with
      | letters =>
        rw [directory, own] at asked
        exact (kept.holds_snoc _).landLetters (asked.came rfl taken)
      | bands => exact kept.holds_snoc _
  | landBands number rail =>
    refine kept.land number _ rfl rfl (fun read => ?_) (fun read since asked own taken => ?_)
    · cases read.directory <;> exact ⟨rfl, rfl⟩
    · cases directory : read.directory with
      | letters => exact kept.holds_snoc _
      | bands =>
        rw [directory, own] at asked
        exact (kept.holds_snoc _).landBands (asked.came rfl taken)
  | fail number =>
    refine kept.land number _ rfl rfl (fun read => ?_) (fun read since asked own taken => ?_)
    · cases read.directory <;> exact ⟨rfl, rfl⟩
    · have holds := kept.holds_snoc (event (RailWorld.step kind) w (.fail number))
      cases read.directory <;> exact ⟨holds.letters, holds.kept, holds.bands⟩

theorem run_kept (moves : List (RailMove ρ)) :
    RailKept (history (RailWorld.step kind) .new moves) (run (RailWorld.step kind) .new moves) :=
  history_invariant (RailWorld.step kind) (fun _ _ move kept => kept.step move) new_kept moves

end
section
variable {past : List (RailStep ρ)} {now : SecState ρ}

theorem none_of_sum {f : RailStep ρ → Nat} {since : List (RailStep ρ)} (none_ : (since.map f).sum = 0) : ∀ x ∈ since, f x = 0 := by
  intro x mem
  exact List.sum_eq_zero_iff_forall_eq_nat.mp none_ _ (mem_map_of_mem mem)

theorem gens_still {before since : List (RailStep ρ)} {asking : RailStep ρ} (early : Counted before asking.before.sec)
    (counted : Counted (before ++ asking :: since) now)
    (bounded : memberships (before ++ asking :: since) + viewings (before ++ asking :: since) < 2 ^ 32) {viewed : Bool}
    (eq : asking.before.sec.keyGen viewed = now.keyGen viewed) :
    (∀ x ∈ since, membership x = 0) ∧ (viewed = true → ∀ x ∈ since, viewing x = 0) := by
  have members : memberships (before ++ asking :: since) = memberships before + (membership asking + (since.map membership).sum) := by
    simp [memberships]
  have views : viewings (before ++ asking :: since) = viewings before + (viewing asking + (since.map viewing).sum) := by
    simp [viewings]
  obtain ⟨letters, viewing_⟩ := early
  obtain ⟨letters', viewing'⟩ := counted
  unfold keyGen at eq
  cases viewed with
  | true =>
    simp only [if_true] at eq
    refine ⟨none_of_sum (by omega), fun _ => none_of_sum (by omega)⟩
  | false =>
    simp only [Bool.false_eq_true, if_false] at eq
    exact ⟨none_of_sum (by omega), nofun⟩

variable {landing : Nat → RailMove ρ}

theorem Came.letters_answer (came : Came past .letters now.lettersKey landing) (counted : Counted past now)
    (bounded : memberships past + viewings past < 2 ^ 32) :
    AnswerOf past .askLetters landing now.appliedTerms.1 (fun s => s.appliedTerms = now.appliedTerms) := by
  obtain ⟨number, since, ⟨before, asking, rfl, rfl, early, input, key⟩, y, mem, landed, taken⟩ := came
  simp only [lettersKey, LettersKey.mk.injEq, true_and] at key
  obtain ⟨unwatched, genre, gen⟩ := key
  rw [← unwatched] at gen
  obtain ⟨members, views⟩ := gens_still early counted bounded gen.symm
  exact ⟨before, asking, since, rfl, input, Prod.ext unwatched.symm genre.symm, ⟨y, mem, landed, taken⟩, members, views⟩

theorem Came.bands_answer {family : BandFamily} {key : LettersKey} (came : Came past .bands key landing)
    (counted : Counted past now) (bounded : memberships past + viewings past < 2 ^ 32)
    (eq : { key with today := now.keyToday family } = now.bandsKey family) :
    AnswerOf past (.askBands family) landing (sensitive (some family) now.appliedTerms.1)
      (fun s => s.appliedTerms = now.appliedTerms ∧ s.keyToday family = key.today) := by
  obtain ⟨number, since, ⟨before, asking, rfl, rfl, early, other, input, rfl⟩, y, mem, landed, taken⟩ := came
  simp only [bandsKey, LettersKey.mk.injEq, Option.some.injEq, true_and] at eq
  obtain ⟨rfl, unwatched, genre, gen⟩ := eq
  rw [← unwatched] at gen ⊢
  obtain ⟨members, views⟩ := gens_still early counted bounded gen
  exact ⟨before, asking, since, rfl, input, ⟨Prod.ext unwatched genre, rfl⟩, ⟨y, mem, landed, taken⟩, members, views⟩

end

end PlxNative.Browse
