import Mathlib.Data.List.Basic

/-! Listing rows, and the view-state edits made on them. -/
namespace PlxNative.ViewState

structure ServerId where
  raw : UInt16
  deriving DecidableEq

def ServerId.unset : ServerId := ⟨65535⟩

inductive Scope where
  | leaf
  | show_
  | season (showRk : String) (index : Int)
  | unknown
  deriving DecidableEq

/-- Which rows an edit reaches: the item and the scope it was published with. -/
structure ViewAt where
  sid : ServerId
  rk : String
  scope : Scope
  deriving DecidableEq

structure WatchSortFacts where
  count : Option Int
  viewedAt : Option Int
  deriving DecidableEq

inductive ViewEdit where
  | watched (on : Bool)
  | leftDeck
  | facts (watched unwatched : Bool) (resumeMs : Int) (sort : Option WatchSortFacts)
  | offset (ms : Int)
  deriving DecidableEq

structure SortInfo where
  viewCount : Option Int
  lastViewedAt : Option Int
  deriving DecidableEq

/-- A row, less what neither the scopes nor the edits read. Kinds are 0 movie, 1 show,
2 season, 3 episode. -/
structure PmsMovie where
  sid : ServerId
  rk : String
  kind : Int
  resumeMs : Int
  showRk : String
  seasonIndex : Int
  unwatched : Bool
  watched : Bool
  leafCount : Option Nat
  viewedLeafCount : Option Nat
  sortInfo : Option SortInfo
  deriving DecidableEq

def kindShow : Int := 1

def sameItem (a b : ServerId × String) : Bool := decide (a.1 = b.1) && decide (a.2 = b.2)

namespace ViewAt

def leaf (sid : ServerId) (rk : String) : ViewAt := ⟨sid, rk, .leaf⟩

def isItem (place : ViewAt) (sid : ServerId) (rk : String) : Bool :=
  sameItem (sid, rk) (place.sid, place.rk)

def coversParts (place : ViewAt) (sid : ServerId) (rk : String) (kind : Int) (showRk : String)
    (seasonIndex : Int) : Bool :=
  if place.isItem sid rk then true
  else if sid ≠ place.sid ∨ showRk.isEmpty then false
  else match place.scope with
    | .show_ => (decide (kind = 2) || decide (kind = 3)) && decide (showRk = place.rk)
    | .season want index => decide (kind = 3) && decide (showRk = want) && decide (seasonIndex = index)
    | .leaf | .unknown => false

def covers (place : ViewAt) (m : PmsMovie) : Bool :=
  place.coversParts m.sid m.rk m.kind m.showRk m.seasonIndex

end ViewAt

/-- The flag, its twin and the resume offset move together, and a container's counts
follow its mark. -/
def setWatched (m : PmsMovie) (on : Bool) : PmsMovie :=
  let m := { m with watched := on, unwatched := !on, resumeMs := 0 }
  if m.kind = kindShow ∨ m.kind = 2 then
    match m.leafCount with
    | some leaves => { m with viewedLeafCount := some (if on then leaves else 0) }
    | none => m
  else m

namespace ViewEdit

/-- The kind of an edit, by which a newer one replaces an older one. -/
def discriminant : ViewEdit → Nat
  | .watched _ => 0
  | .leftDeck => 1
  | .facts _ _ _ _ => 2
  | .offset _ => 3

def apply (edit : ViewEdit) (m : PmsMovie) : PmsMovie :=
  match edit with
  | .watched on =>
    let m := setWatched m on
    { m with sortInfo := m.sortInfo.map (fun facts => { facts with viewCount := none, lastViewedAt := none }) }
  | .facts on off resumeMs sort =>
    let m := { m with watched := on, unwatched := off, resumeMs }
    match sort with
    | some sort =>
      let facts := m.sortInfo.getD ⟨none, none⟩
      { m with sortInfo := some { facts with viewCount := sort.count, lastViewedAt := sort.viewedAt } }
    | none => m
  | .offset ms => { m with resumeMs := ms }
  | .leftDeck => m

def pressed : ViewEdit → Option Bool
  | .watched on => some on
  | _ => none

end ViewEdit

def sameKind (a b : ViewEdit) : Bool := decide (a.discriminant = b.discriminant)

/-- What a row is, whatever body a read brings for it. -/
structure RowId where
  sid : ServerId
  rk : String
  kind : Int
  showRk : String
  seasonIndex : Int

def PmsMovie.id (m : PmsMovie) : RowId := ⟨m.sid, m.rk, m.kind, m.showRk, m.seasonIndex⟩

section
variable {m row : PmsMovie}

theorem covers_of_same_id (eq : m.id = row.id) (place : ViewAt) : place.covers m = place.covers row := by
  simp only [PmsMovie.id, RowId.mk.injEq] at eq
  obtain ⟨sid, rk, kind, showRk, seasonIndex⟩ := eq
  simp only [ViewAt.covers, sid, rk, kind, showRk, seasonIndex]

theorem setWatched_id (on : Bool) : (setWatched m on).id = m.id := by
  simp only [setWatched]
  split
  · split <;> rfl
  · rfl

theorem setWatched_watched (on : Bool) : (setWatched m on).watched = on := by
  simp only [setWatched]
  split
  · split <;> rfl
  · rfl

theorem apply_id (edit : ViewEdit) : (edit.apply m).id = m.id := by
  cases edit with
  | watched on => exact setWatched_id on
  | facts on off resumeMs sort => cases sort <;> rfl
  | leftDeck | offset ms => rfl

end

/-- The inner loop of a patch: the watched presses among `edits`, made again in order. -/
def replay (edits : List (ViewAt × ViewEdit)) (m : PmsMovie) : PmsMovie :=
  edits.foldl (fun m edit => if edit.2.pressed.isSome && edit.1.covers m then edit.2.apply m else m) m

/-- The watched value an edit at a place asks for a row. -/
def ask (m : PmsMovie) (place : ViewAt) (edit : ViewEdit) : Option Bool :=
  if place.covers m then edit.pressed else none

/-- The watched values asked for a row, in order. -/
def asked (edits : List (ViewAt × ViewEdit)) (m : PmsMovie) : List Bool :=
  edits.filterMap (fun edit => ask m edit.1 edit.2)

theorem asked_of_same_id {m row : PmsMovie} (eq : m.id = row.id) (edits : List (ViewAt × ViewEdit)) :
    asked edits m = asked edits row := by
  unfold asked
  congr 1
  simp only [ask, covers_of_same_id eq]

theorem replay_spec (edits : List (ViewAt × ViewEdit)) (m : PmsMovie) :
    (replay edits m).id = m.id ∧
      (replay edits m).watched = ((asked edits m).getLast?).getD m.watched ∧
      (asked edits m = [] → replay edits m = m) := by
  induction edits generalizing m with
  | nil => exact ⟨rfl, rfl, fun _ => rfl⟩
  | cons edit edits ih =>
    obtain ⟨place, edit⟩ := edit
    by_cases reaches : (edit.pressed.isSome && place.covers m) = true
    · have first : replay ((place, edit) :: edits) m = replay edits (edit.apply m) := by
        simp only [replay, List.foldl_cons, if_pos reaches]
      obtain ⟨is_press, covered⟩ := Bool.and_eq_true_iff.mp reaches
      obtain ⟨on, pressed⟩ := Option.isSome_iff_exists.mp is_press
      have head : asked ((place, edit) :: edits) m = on :: asked edits m := by
        simp [asked, ask, covered, pressed]
      have value : (edit.apply m).watched = on := by
        cases edit with
        | watched on' =>
          cases pressed
          exact setWatched_watched on
        | leftDeck | facts | offset => cases pressed
      obtain ⟨id, watched, -⟩ := ih (edit.apply m)
      rw [asked_of_same_id (apply_id edit), value] at watched
      rw [first, head]
      refine ⟨id.trans (apply_id edit), watched.trans ?_, fun none_asked => by cases none_asked⟩
      rw [List.getLast?_cons, Option.getD_some]
    · have first : replay ((place, edit) :: edits) m = replay edits m := by
        simp only [replay, List.foldl_cons, if_neg reaches]
      have head : asked ((place, edit) :: edits) m = asked edits m := by
        cases covered : place.covers m <;> cases pressed : edit.pressed <;> simp_all [asked, ask]
      rw [first, head]
      exact ih m

end PlxNative.ViewState
