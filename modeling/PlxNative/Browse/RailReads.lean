import PlxNative.Browse.Letters
import PlxNative.Lib.Transducer

/-! The rail's reads over a run of one section: a read carries the key of when it was asked, and
comes back, or fails, whenever it likes. -/
namespace PlxNative.Browse
open Transducer (Event)

inductive Directory where
  | letters
  | bands
deriving DecidableEq

structure ListRead where
  number : Nat
  directory : Directory
  key : LettersKey
  libraryType : LibraryType

inductive RailMove (ρ : Type) where
  | setSort (sorts : List Text) (index : Nat) (descending : Bool)
  | setGenre (genre : Option Text)
  | setUnwatched (unwatched : Bool)
  | setLibraryType (libraryType : LibraryType)
  /-- A change of the membership is flagged. -/
  | flagStale
  | flagRelist
  | resetListing
  | membershipChanged
  | viewingChanged
  | noteToday (today : Option Day)
  | tickLetters
  | tickBands
  | askLetters
  | askBands (family : BandFamily)
  | landLetters (number : Nat) (list : List (Text × Int))
  | landBands (number : Nat) (rail : Option ρ)
  /-- A read fails. -/
  | fail (number : Nat)

structure RailWorld (ρ : Type) where
  sec : SecState ρ
  out : List ListRead
  asked : Nat

namespace RailWorld
variable {ρ : Type}

def new : RailWorld ρ := ⟨.new, [], 0⟩

def edit (w : RailWorld ρ) (sec : SecState ρ) : RailWorld ρ := { w with sec := sec }

def ask (w : RailWorld ρ) (directory : Directory) (key : LettersKey) : RailWorld ρ :=
  { w with out := w.out ++ [⟨w.asked, directory, key, w.sec.libraryType⟩], asked := w.asked + 1 }

def find (w : RailWorld ρ) (number : Nat) : Option ListRead := w.out.find? (·.number = number)

/-- The answer of a read is taken, and refused where the section lists another type by now. -/
def land (w : RailWorld ρ) (number : Nat) (apply : ListRead → SecState ρ) : RailWorld ρ × Bool :=
  match w.find number with
  | none => (w, false)
  | some read =>
    let rest := { w with out := w.out.filter (·.number ≠ number) }
    if read.libraryType ≠ w.sec.libraryType then (rest, false) else (rest.edit (apply read), true)

variable (kind : SecKind)

def step (w : RailWorld ρ) : RailMove ρ → RailWorld ρ × Bool
  | .setSort sorts index descending => (w.edit { w.sec with sorts := sorts, sortIdx := index, sortDesc := descending }, true)
  | .setGenre genre => (w.edit { w.sec with genre := genre }, true)
  | .setUnwatched unwatched => (w.edit { w.sec with unwatched := unwatched }, true)
  | .setLibraryType libraryType =>
    if w.sec.libraryType = libraryType then (w, true)
    else (w.edit { w.sec with libraryType := libraryType }.forgetLetters, true)
  | .flagStale => (w.edit { w.sec with membershipStale := true }, true)
  | .flagRelist => (w.edit { w.sec with relist := true }, true)
  | .resetListing => (w.edit w.sec.resetListing, true)
  | .membershipChanged => (w.edit w.sec.membershipChanged, true)
  | .viewingChanged => (w.edit (w.sec.viewingChanged kind).1, (w.sec.viewingChanged kind).2)
  | .noteToday today => (w.edit { w.sec with today := today }, true)
  | .tickLetters => (w.edit w.sec.tickLettersBackoff, true)
  | .tickBands => (w.edit w.sec.tickBandsBackoff, true)
  | .askLetters => (w.ask .letters w.sec.lettersKey, true)
  | .askBands family => (w.ask .bands (w.sec.bandsKey family), true)
  | .landLetters number list =>
    w.land number (fun read => match read.directory with
      | .letters => w.sec.landLetters read.key list
      | .bands => w.sec)
  | .landBands number rail =>
    w.land number (fun read => match read.directory with
      | .letters => w.sec
      | .bands => w.sec.landBands read.key rail)
  | .fail number =>
    w.land number (fun read => match read.directory with
      | .letters => w.sec.lettersFailed read.key
      | .bands => w.sec.bandsFailed read.key)

end RailWorld

abbrev RailStep (ρ : Type) : Type := Event (RailWorld ρ) (RailMove ρ) Bool

section
variable {ρ : Type}

/-- How often a step bumped the membership's generation. -/
def membership (x : RailStep ρ) : Nat :=
  let stale := if x.before.sec.membershipStale || x.before.sec.relist then 1 else 0
  match x.input with
  | .membershipChanged => 1 + stale
  | .resetListing => stale
  | _ => 0

def viewing (x : RailStep ρ) : Nat :=
  match x.input with
  | .viewingChanged => 1
  | _ => 0

def memberships (past : List (RailStep ρ)) : Nat := (past.map membership).sum

def viewings (past : List (RailStep ρ)) : Nat := (past.map viewing).sum

/-- A read of a kind is asked only where it is owed and none of its kind is out. -/
def oneAtATime (kind : SecKind) (x : RailStep ρ) : Bool :=
  match x.input with
  | .askLetters => x.before.sec.lettersOwed && x.before.out.all (·.directory ≠ .letters)
  | .askBands family =>
    x.before.sec.railFamily kind = some family && x.before.sec.bandsOwedFor family && x.before.out.all (·.directory ≠ .bands)
  | _ => true

/-- A read was answered, with nothing of the membership, or of the watched states where they count,
between its asking and now. -/
def AnswerOf (past : List (RailStep ρ)) (ask : RailMove ρ) (landing : Nat → RailMove ρ) (viewed : Bool)
    (terms : SecState ρ → Prop) : Prop :=
  ∃ before asking since, past = before ++ asking :: since ∧ asking.input = ask ∧ terms asking.before.sec ∧
    (∃ x ∈ since, x.input = landing asking.before.asked ∧ x.answer = true) ∧
    (∀ x ∈ since, membership x = 0) ∧ (viewed = true → ∀ x ∈ since, viewing x = 0)

variable (kind : SecKind)

/-- The key that a read of a kind would carry now, where the rail has one of that kind. -/
def presentKey (s : SecState ρ) : Directory → Option LettersKey
  | .letters => some s.lettersKey
  | .bands => (s.railFamily kind).map s.bandsKey

/-- An answer was taken under the key that is the present one. -/
def LandedPresent (directory : Directory) (landing : RailStep ρ) (number : Nat) : Prop :=
  landing.answer = true ∧ ∃ read, landing.before.find number = some read ∧ read.directory = directory ∧
    presentKey kind landing.after.sec directory = some read.key

/-- The present key of a landing, and the type that the section lists, have not moved since. -/
def Unmoved (directory : Directory) (landing : RailStep ρ) (since : List (RailStep ρ)) : Prop :=
  ∀ x ∈ since, presentKey kind x.after.sec directory = presentKey kind landing.after.sec directory ∧
    x.after.sec.libraryType = landing.after.sec.libraryType

end
end PlxNative.Browse
