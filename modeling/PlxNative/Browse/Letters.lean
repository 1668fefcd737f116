import PlxNative.Lib.Text

/-! The rail of a Library section: the first letters of a title sort and the band counts of a value
sort, each under the key of what it counted. -/
namespace PlxNative.Browse

inductive LibraryType where
  | primary
  | seasons
  | episodes
  | collections
deriving DecidableEq

def LibraryType.filters (t : LibraryType) : Bool := t ≠ .collections

inductive SecKind where
  | movie
  | show_
deriving DecidableEq

structure Day where
  year : Int
  month : Int
  day : Int
deriving DecidableEq

inductive Basis where
  | local_
  | utc

inductive BandFamily where
  | rating
  | duration
  | dateAdded
  | dateViewed
  | lastEpisodeAdded
  | unplayed
  | plays
  | release
deriving DecidableEq

namespace BandFamily

def ofSort (key : Text) (descending : Bool) (kind : SecKind) : LibraryType → Option BandFamily
  | .seasons | .collections => none
  | .episodes =>
    if kind = .movie then none
    else if key = "rating".toList then some .rating
    else if key = "addedAt".toList then some .dateAdded
    else if key = "lastViewedAt".toList then some .dateViewed
    else if key = "originallyAvailableAt".toList then some .release
    else none
  | .primary =>
    if key = "rating".toList then some .rating
    else if key = "duration".toList then if kind = .movie then some .duration else none
    else if key = "addedAt".toList then some .dateAdded
    else if key = "lastViewedAt".toList then some .dateViewed
    else if key = "episode.addedAt".toList then if kind = .show_ && descending then some .lastEpisodeAdded else none
    else if key = "unviewedLeafCount".toList then if kind = .show_ then some .unplayed else none
    else if key = "viewCount".toList then some .plays
    else if key = "originallyAvailableAt".toList then some .release
    else none

def railReady (_ : BandFamily) : Bool := true

def movesWithViewing : BandFamily → Bool
  | .plays | .unplayed | .dateViewed => true
  | _ => false

/-- A calendar family has a basis, a fixed ladder none. -/
def basis : BandFamily → Option Basis
  | .dateAdded | .dateViewed | .lastEpisodeAdded => some .local_
  | .release => some .utc
  | _ => none

end BandFamily

/-- Do the counts of a family, or of the letters, move with a watch? -/
def sensitive (family : Option BandFamily) (unwatched : Bool) : Bool := unwatched || family.any (·.movesWithViewing)

structure LettersKey where
  family : Option BandFamily
  today : Option Day
  unwatched : Bool
  genre : Option Text
  gen : Nat
deriving DecidableEq

namespace LettersKey

def viewingSensitive (k : LettersKey) : Bool := sensitive k.family k.unwatched

def isButForTheDay (k other : LettersKey) : Bool :=
  k.today.isSome && other.today.isSome && k.today ≠ other.today && { k with today := other.today } = other

end LettersKey

def lettersRetrySteps : Nat := 120

/-- A section, as far as its rail reads it. `ρ` is the layout of a rail of bands. -/
structure SecState (ρ : Type) where
  libraryType : LibraryType
  sorts : List Text
  sortIdx : Nat
  sortDesc : Bool
  unwatched : Bool
  genre : Option Text
  today : Option Day
  membershipStale : Bool
  relist : Bool
  lettersGen : Nat
  viewingGen : Nat
  letters : List (Text × Int)
  lettersFor : Option LettersKey
  lettersKept : Option (LettersKey × List (Text × Int))
  lettersBackoff : Option (LettersKey × Nat)
  bands : Option (LettersKey × Option ρ)
  bandsKept : Option (LettersKey × Option ρ)
  bandsBackoff : Option (LettersKey × Nat)

namespace SecState
variable {ρ : Type} (s : SecState ρ)

def new : SecState ρ := ⟨.primary, [], 0, false, false, none, none, false, false, 0, 0, [], none, none, none, none, none, none⟩

def appliedTerms : Bool × Option Text := if !s.libraryType.filters then (false, none) else (s.unwatched, s.genre)

def bump (gen : Nat) : Nat := (gen + 1) % 2 ^ 32

def keyGen (viewing : Bool) : Nat := if viewing then (s.lettersGen + s.viewingGen) % 2 ^ 32 else s.lettersGen

def lettersKey : LettersKey := ⟨none, none, s.appliedTerms.1, s.appliedTerms.2, s.keyGen s.appliedTerms.1⟩

def keyToday (family : BandFamily) : Option Day := if family.basis.isSome then s.today else none

def bandsKey (family : BandFamily) : LettersKey :=
  ⟨some family, s.keyToday family, s.appliedTerms.1, s.appliedTerms.2, s.keyGen (sensitive (some family) s.appliedTerms.1)⟩

/-- The landed list, or the one it replaced, where it describes the listing of now. -/
def shownLetters : Option (List (Text × Int)) :=
  if s.lettersFor = some s.lettersKey then some s.letters
  else (s.lettersKept.filter (fun kept => kept.1 = s.lettersKey)).map (·.2)

def lettersCurrent : Bool := s.shownLetters.isSome

def heldBack (backoff : Option (LettersKey × Nat)) (key : LettersKey) : Bool := backoff.any (fun b => 0 < b.2 && b.1 = key)

def lettersOwed : Bool := !s.lettersCurrent && !heldBack s.lettersBackoff s.lettersKey

def tick (backoff : Option (LettersKey × Nat)) : Option (LettersKey × Nat) :=
  (backoff.map (fun b => (b.1, b.2 - 1))).filter (fun b => b.2 ≠ 0)

def tickLettersBackoff : SecState ρ := { s with lettersBackoff := tick s.lettersBackoff }

def landLetters (key : LettersKey) (list : List (Text × Int)) : SecState ρ :=
  match s.lettersFor with
  | some previous =>
    if previous ≠ key then
      { s with
        letters := list
        lettersKept := if previous.viewingSensitive then none else some (previous, s.letters)
        lettersFor := some key
        lettersBackoff := none }
    else
      { s with
        letters := list
        lettersKept := s.lettersKept.filter (fun kept => kept.1 ≠ key)
        lettersFor := some key
        lettersBackoff := none }
  | none =>
    { s with
      letters := list
      lettersKept := s.lettersKept.filter (fun kept => kept.1 ≠ key)
      lettersFor := some key
      lettersBackoff := none }

def lettersFailed (key : LettersKey) : SecState ρ := { s with lettersBackoff := some (key, lettersRetrySteps) }

def forgetBands : SecState ρ := { s with bands := none, bandsKept := none, bandsBackoff := none }

def forgetLetters : SecState ρ :=
  { s with letters := [], lettersFor := none, lettersKept := none, lettersBackoff := none }.forgetBands

/-- A stale flag is what the letters hear of a membership change that was flagged first. -/
def resetListing : SecState ρ :=
  { s with
    lettersGen := if s.membershipStale || s.relist then bump s.lettersGen else s.lettersGen
    membershipStale := false
    relist := false }

def membershipChanged : SecState ρ := { s with lettersGen := bump s.lettersGen }.resetListing

/-- The family of the sort that the grid is ordered by. -/
def railFamily (kind : SecKind) : Option BandFamily :=
  ((s.sorts[s.sortIdx]?).bind (fun key => BandFamily.ofSort key s.sortDesc kind s.libraryType)).filter
    (fun family => family.railReady && (family.basis.isNone || s.today.isSome))

def bandsSlots : List (LettersKey × Option ρ) := s.bands.toList ++ s.bandsKept.toList

def bandsVerdictFor (family : BandFamily) : Option (Option ρ) :=
  (s.bandsSlots.find? (fun slot => slot.1 = s.bandsKey family)).map (·.2)

/-- The verdict of now, or the one of the day before while that is out. -/
def bandsOnScreen (kind : SecKind) : Option (Option ρ) :=
  (s.railFamily kind).bind (fun family => (s.bandsVerdictFor family).or
    ((s.bandsSlots.find? (fun slot => slot.1.isButForTheDay (s.bandsKey family))).map (·.2)))

def bandsCurrent (kind : SecKind) : Bool := (s.bandsOnScreen kind).isSome

def bandsOwedFor (family : BandFamily) : Bool :=
  (s.bandsVerdictFor family).isNone && !heldBack s.bandsBackoff (s.bandsKey family)

def tickBandsBackoff : SecState ρ := { s with bandsBackoff := tick s.bandsBackoff }

/-- The previous day's list of the same terms is dropped, and any other that does not move with a
watch is kept. -/
def landBands (key : LettersKey) (rail : Option ρ) : SecState ρ :=
  let kept := match s.bands with
    | some previous =>
      if previous.1.isButForTheDay key then s.bandsKept
      else if previous.1 ≠ key then if previous.1.viewingSensitive then none else some previous
      else s.bandsKept.filter (fun kept => kept.1 ≠ key)
    | none => s.bandsKept.filter (fun kept => kept.1 ≠ key)
  { s with
    bands := some (key, rail)
    bandsKept := kept.filter (fun kept => !kept.1.isButForTheDay key)
    bandsBackoff := none }

def bandsFailed (key : LettersKey) : SecState ρ := { s with bandsBackoff := some (key, lettersRetrySteps) }

/-- Whether the rail on screen lost its list. -/
def viewingChanged (kind : SecKind) : SecState ρ × Bool :=
  let after := { s with viewingGen := bump s.viewingGen }
  (after, (s.lettersCurrent && !after.lettersCurrent) || (s.bandsCurrent kind && !after.bandsCurrent kind))

end SecState
end PlxNative.Browse
