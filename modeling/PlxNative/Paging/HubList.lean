import Mathlib.Data.List.Nodup
import PlxNative.Lib.Sha256
import PlxNative.Paging.Window

/-! A server's hub list, read one window of hubs at a time and folded as it arrives. A list that
moves under the windows is read again once, and then asked for whole. -/
namespace PlxNative.Paging.HubList
open List

structure Hub where
  hubIdentifier : String
  key : String

def Hub.name (hub : Hub) : String × String := (hub.hubIdentifier, hub.key)

structure MediaContainer where
  offset : Int
  totalSize : Int
  hub : List Hub

structure PageReq where
  start : Nat
  size : Nat

/-- A server's answers; the first argument tells one request from another. -/
abbrev Read := Nat → Option PageReq → Option MediaContainer

def hubWindow : Nat := 16

/-- One read in the making: the hubs seen, the size the list was said to have, and the runs folded. -/
structure Walk where
  seen : List (String × String)
  total : Option Nat
  start : Nat
  taken : List (List Hub)

def Walk.begin_ : Walk := ⟨[], none, 0, []⟩

def Walk.request (walk : Walk) : PageReq := ⟨walk.start, hubWindow⟩

/-- How a read in windows ends: done, with a walk or with an answer that was the whole list. -/
inductive HubListRead where
  | done (walk : Walk)
  | whole (hubs : List Hub)
  | moved
  | failed

/-- An end comes with every run the read has taken. -/
inductive Turn where
  | next (walk : Walk)
  | ended (read : HubListRead) (taken : List (List Hub))

def answered (mc : MediaContainer) : Option Nat := if 0 < mc.totalSize then some mc.totalSize.toNat else none

/-- Nothing, when a hub of these was seen before. -/
def seeAll (seen : List (String × String)) : List Hub → Option (List (String × String))
  | [] => some seen
  | hub :: rest => if hub.name ∈ seen then none else seeAll (hub.name :: seen) rest

def sizeMoved (total answer : Option Nat) : Bool :=
  match total, answer with
  | some was, some now => was ≠ now
  | _, _ => false

def Walk.finished (walk : Walk) (read : Nat) : Bool :=
  match walk.total with
  | some total => decide (total ≤ walk.start)
  | none => decide (read < hubWindow)

/-- A window's hubs, none of them seen before. -/
def Walk.take (walk : Walk) (seen : List (String × String)) (hubs : List Hub) : Walk :=
  { walk with seen, taken := walk.taken ++ [hubs], start := walk.start + hubs.length }

/-- A window's hubs, once nothing else is against them. -/
def window (walk : Walk) (hubs : List Hub) : Turn :=
  if hubs.isEmpty then
    if walk.total.any (walk.seen.length < ·) then .ended .moved walk.taken else .ended (.done walk) walk.taken
  else match seeAll walk.seen hubs with
    | none => .ended .moved walk.taken
    | some seen =>
      let walk := walk.take seen hubs
      if walk.finished hubs.length then
        if walk.total.any (walk.start ≠ ·) then .ended .moved walk.taken else .ended (.done walk) walk.taken
      else .next walk

def Walk.told (walk : Walk) (mc : MediaContainer) : Walk := { walk with total := walk.total.or (answered mc) }

def turn (walk : Walk) : Option MediaContainer → Turn
  | none => .ended .failed walk.taken
  | some mc =>
    if walk.start = 0 ∧ hubWindow < mc.hub.length then
      .ended (.whole mc.hub) (walk.taken ++ Blocks.chunks hubWindow mc.hub)
    else if 0 < walk.start ∧ mc.offset ≠ walk.start then .ended .moved walk.taken
    else if sizeMoved walk.total (answered mc) then .ended .moved walk.taken
    else window (walk.told mc) mc.hub

/-- A read as far as it came: its end, if it has one, the requests made and the runs taken. -/
structure Windows where
  ended : Option HubListRead
  requests : Nat
  taken : List (List Hub)

def readHubWindows (read : Read) : Nat → Nat → Walk → Windows
  | 0, requests, walk => ⟨none, requests, walk.taken⟩
  | fuel + 1, requests, walk =>
    match turn walk (read requests (some walk.request)) with
    | .next walk => readHubWindows read fuel (requests + 1) walk
    | .ended result taken => ⟨some result, requests + 1, taken⟩

def readTwice (read : Read) (fuel : Nat) : Windows :=
  let first := readHubWindows read fuel 0 .begin_
  match first.ended with
  | some .moved =>
    let second := readHubWindows read fuel first.requests .begin_
    ⟨second.ended, second.requests, first.taken ++ second.taken⟩
  | _ => first

/-- What the read came to, once it has ended, and every run that was taken. -/
structure Folded (S : Type) where
  result : Option (Option S)
  taken : List (List Hub)

section
variable {S : Type} (take : S → List Hub → S) (fresh : S)

def foldRuns (runs : List (List Hub)) : S := runs.foldl take fresh

def readHubList (read : Read) (fuel : Nat) : Folded S :=
  let windows := readTwice read fuel
  match windows.ended with
  | none => ⟨none, windows.taken⟩
  | some (.done walk) => ⟨some (some (foldRuns take fresh walk.taken)), windows.taken⟩
  | some (.whole hubs) => ⟨some (some (foldRuns take fresh (Blocks.chunks hubWindow hubs))), windows.taken⟩
  | some .failed => ⟨some none, windows.taken⟩
  | some .moved => match read windows.requests none with
    | none => ⟨some none, windows.taken⟩
    | some mc =>
      let runs := Blocks.chunks hubWindow mc.hub
      ⟨some (some (foldRuns take fresh runs)), windows.taken ++ runs⟩

end
section
variable {seen later : List (String × String)} {hubs : List Hub}

theorem seeAll_eq_some (held : seeAll seen hubs = some later) : later = (hubs.map Hub.name).reverse ++ seen := by
  induction hubs generalizing seen with
  | nil =>
    injection held with held
    exact held.symm
  | cons hub rest ih =>
    unfold seeAll at held
    split at held
    · cases held
    · rw [ih held, map_cons, reverse_cons, append_assoc]
      rfl

theorem seeAll_nodup (nodup : seen.Nodup) (held : seeAll seen hubs = some later) : later.Nodup := by
  induction hubs generalizing seen with
  | nil =>
    injection held with held
    exact held ▸ nodup
  | cons hub rest ih =>
    unfold seeAll at held
    split at held
    · cases held
    · rename_i new
      exact ih (nodup_cons.mpr ⟨new, nodup⟩) held

theorem seeAll_of_nodup (nodup : ((hubs.map Hub.name).reverse ++ seen).Nodup) :
    seeAll seen hubs = some ((hubs.map Hub.name).reverse ++ seen) := by
  induction hubs generalizing seen with
  | nil => rfl
  | cons hub rest ih =>
    rw [map_cons, reverse_cons, append_assoc, singleton_append] at nodup ⊢
    have new : hub.name ∉ seen := (nodup_cons.mp (nodup_append.mp nodup).2.1).1
    unfold seeAll
    rw [if_neg new]
    exact ih nodup

end

/-- The hubs of a walk are those it saw, each once. -/
structure Walk.Sound (walk : Walk) : Prop where
  start : walk.start = walk.taken.flatten.length
  seen : walk.seen = (walk.taken.flatten.map Hub.name).reverse
  nodup : walk.seen.Nodup

/-- An answer that does not move the list under the walk. -/
structure Walk.Agrees (walk : Walk) (mc : MediaContainer) : Prop where
  offset : 0 < walk.start → mc.offset = walk.start
  size : sizeMoved walk.total (answered mc) = false

/-- The walk with the hubs of an answer that agrees with it. -/
structure Walk.Takes (walk : Walk) (mc : MediaContainer) (next : Walk) : Prop where
  agrees : walk.Agrees mc
  some_ : mc.hub ≠ []
  fits : walk.start = 0 → mc.hub.length ≤ hubWindow
  next : ∃ seen, seeAll walk.seen mc.hub = some seen ∧ next = (walk.told mc).take seen mc.hub

inductive TurnOf (walk : Walk) : Option MediaContainer → Turn → Prop where
  | failed : TurnOf walk none (.ended .failed walk.taken)
  | whole {mc : MediaContainer} (first : walk.start = 0) (long : hubWindow < mc.hub.length) :
      TurnOf walk (some mc) (.ended (.whole mc.hub) (walk.taken ++ Blocks.chunks hubWindow mc.hub))
  | moved (mc : MediaContainer) : TurnOf walk (some mc) (.ended .moved walk.taken)
  | empty {mc : MediaContainer} (agrees : walk.Agrees mc) (empty : mc.hub = [])
      (reached : (walk.told mc).total.any (walk.seen.length < ·) = false) :
      TurnOf walk (some mc) (.ended (.done (walk.told mc)) walk.taken)
  | next {mc : MediaContainer} {next : Walk} (takes : walk.Takes mc next) (open_ : next.finished mc.hub.length = false) :
      TurnOf walk (some mc) (.next next)
  | overrun {mc : MediaContainer} {next : Walk} (takes : walk.Takes mc next) : TurnOf walk (some mc) (.ended .moved next.taken)
  | last {mc : MediaContainer} {next : Walk} (takes : walk.Takes mc next)
      (reached : next.total.any (next.start ≠ ·) = false) : TurnOf walk (some mc) (.ended (.done next) next.taken)

theorem turnOf (walk : Walk) (answer : Option MediaContainer) : TurnOf walk answer (turn walk answer) := by
  cases answer with
  | none => exact .failed
  | some mc =>
    unfold turn
    simp only
    by_cases whole : walk.start = 0 ∧ hubWindow < mc.hub.length
    · rw [if_pos whole]
      exact .whole whole.1 whole.2
    · rw [if_neg whole]
      by_cases elsewhere : 0 < walk.start ∧ mc.offset ≠ walk.start
      · rw [if_pos elsewhere]
        exact .moved mc
      · rw [if_neg elsewhere]
        cases size : sizeMoved walk.total (answered mc) with
        | true => exact .moved mc
        | false =>
          have agrees : walk.Agrees mc := ⟨fun later => not_not.mp (fun other => elsewhere ⟨later, other⟩), size⟩
          have fits : walk.start = 0 → mc.hub.length ≤ hubWindow :=
            fun first => Nat.le_of_not_lt (fun long => whole ⟨first, long⟩)
          unfold window
          by_cases empty : mc.hub = []
          · rw [if_pos (List.isEmpty_iff.mpr empty)]
            cases reached : (walk.told mc).total.any ((walk.told mc).seen.length < ·) with
            | true => exact .moved mc
            | false => exact .empty agrees empty reached
          · rw [if_neg (fun none_ => empty (List.isEmpty_iff.mp none_))]
            cases held : seeAll (walk.told mc).seen mc.hub with
            | none => exact .moved mc
            | some seen =>
              have takes : walk.Takes mc ((walk.told mc).take seen mc.hub) := ⟨agrees, empty, fits, seen, held, rfl⟩
              simp only
              cases finished : ((walk.told mc).take seen mc.hub).finished mc.hub.length with
              | false => exact .next takes finished
              | true =>
                cases reached : ((walk.told mc).take seen mc.hub).total.any (((walk.told mc).take seen mc.hub).start ≠ ·) with
                | true => exact .overrun takes
                | false => exact .last takes reached

theorem Walk.Agrees.turn_eq {walk : Walk} {mc : MediaContainer} (agrees : walk.Agrees mc)
    (fits : walk.start = 0 → mc.hub.length ≤ hubWindow) : turn walk (some mc) = window (walk.told mc) mc.hub := by
  have whole : ¬(walk.start = 0 ∧ hubWindow < mc.hub.length) := fun long => Nat.not_lt_of_le (fits long.1) long.2
  have elsewhere : ¬(0 < walk.start ∧ mc.offset ≠ walk.start) := fun moved => moved.2 (agrees.offset moved.1)
  simp only [turn, if_neg whole, if_neg elsewhere, agrees.size, Bool.false_eq_true, if_false]

section
variable {walk next : Walk} {mc : MediaContainer}

theorem Walk.Sound.begin_ : Walk.Sound .begin_ := ⟨rfl, rfl, nodup_nil⟩

theorem Walk.Sound.count (sound : walk.Sound) : walk.seen.length = walk.start := by
  rw [sound.seen, sound.start, length_reverse, length_map]

theorem Walk.Sound.told (sound : walk.Sound) (mc : MediaContainer) : (walk.told mc).Sound :=
  ⟨sound.start, sound.seen, sound.nodup⟩

section
variable (takes : walk.Takes mc next)
include takes

theorem Walk.Takes.taken : next.taken = walk.taken ++ [mc.hub] := by
  obtain ⟨seen, _, rfl⟩ := takes.next
  rfl

theorem Walk.Takes.start : next.start = walk.start + mc.hub.length := by
  obtain ⟨seen, _, rfl⟩ := takes.next
  rfl

theorem Walk.Takes.positive : 0 < next.start := by
  rw [takes.start]
  exact Nat.add_pos_right _ (length_pos_iff.mpr takes.some_)

theorem Walk.Takes.sound (sound : walk.Sound) : next.Sound := by
  have taken := takes.taken
  have start := takes.start
  obtain ⟨seen, held, rfl⟩ := takes.next
  refine ⟨?_, ?_, seeAll_nodup sound.nodup held⟩
  · rw [start, taken, sound.start, flatten_append, flatten_singleton, length_append]
  · rw [taken, flatten_append, flatten_singleton, map_append, reverse_append, ← sound.seen]
    exact seeAll_eq_some held

end

end
section
variable {read : Read}

/-- The walks a read comes to, with the requests made before; `again` is the second try. -/
inductive Reached (read : Read) : Bool → Nat → Walk → Prop where
  | first : Reached read false 0 .begin_
  | next {again : Bool} {n : Nat} {walk next : Walk} (reached : Reached read again n walk)
      (turned : turn walk (read n (some walk.request)) = .next next) : Reached read again (n + 1) next
  | again {n : Nat} {walk : Walk} {taken : List (List Hub)} (reached : Reached read false n walk)
      (turned : turn walk (read n (some walk.request)) = .ended .moved taken) : Reached read true (n + 1) .begin_

theorem turn_next {walk next : Walk} {answer : Option MediaContainer} (turned : turn walk answer = .next next) :
    ∃ mc, answer = some mc ∧ walk.Takes mc next ∧ next.finished mc.hub.length = false := by
  have shape := turnOf walk answer
  rw [turned] at shape
  cases shape
  exact ⟨_, rfl, ‹_›, ‹_›⟩

variable {walk : Walk} {again : Bool}

variable {n : Nat}

theorem Reached.sound (reached : Reached read again n walk) : walk.Sound := by
  induction reached with
  | first => exact .begin_
  | next _ turned ih =>
    obtain ⟨mc, _, takes, _⟩ := turn_next turned
    exact takes.sound ih
  | again => exact .begin_

/-- A later window that holds more hubs than were asked for, and would be taken. -/
structure Overlong (walk : Walk) (mc : MediaContainer) : Prop where
  later : 0 < walk.start
  agrees : walk.Agrees mc
  new : (seeAll walk.seen mc.hub).isSome = true
  long : hubWindow < mc.hub.length

/-- A later window without hubs that says the list is shorter than what was read of it. -/
structure Understated (walk : Walk) (mc : MediaContainer) : Prop where
  later : 0 < walk.start
  agrees : walk.Agrees mc
  empty : mc.hub = []
  short : ∃ total, (walk.told mc).total = some total ∧ total < walk.start

/-- No answer to a later window is one of these. -/
def Steady (read : Read) : Prop :=
  ∀ again n walk mc, Reached read again n walk → read n (some walk.request) = some mc → ¬Overlong walk mc ∧ ¬Understated walk mc

/-- The runs of a walk are no longer than a window. -/
def Short (runs : List (List Hub)) : Prop := ∀ run ∈ runs, run.length ≤ hubWindow

theorem Short.append {runs more : List (List Hub)} (first : Short runs) (second : Short more) : Short (runs ++ more) := by
  intro run mem
  rcases mem_append.mp mem with mem | mem
  · exact first run mem
  · exact second run mem

theorem short_chunks (hubs : List Hub) : Short (Blocks.chunks hubWindow hubs) :=
  fun _ mem => Blocks.mem_chunks_length (by decide) mem

variable {mc : MediaContainer}

theorem Walk.Takes.short {walk next : Walk} (takes : walk.Takes mc next) (short : Short walk.taken)
    (steady : ¬Overlong walk mc) : Short next.taken := by
  rw [takes.taken]
  apply short.append
  intro run mem
  rw [mem_singleton.mp mem]
  by_cases first : walk.start = 0
  · exact takes.fits first
  · by_contra long
    obtain ⟨seen, held, _⟩ := takes.next
    exact steady ⟨Nat.pos_of_ne_zero first, takes.agrees, Option.isSome_iff_exists.mpr ⟨seen, held⟩, Nat.lt_of_not_le long⟩

theorem windows_short (steady : Steady read) (fuel : Nat) (reached : Reached read again n walk)
    (short : Short walk.taken) : Short (readHubWindows read fuel n walk).taken := by
  induction fuel generalizing n walk with
  | zero => exact short
  | succ fuel ih =>
    have shape := turnOf walk (read n (some walk.request))
    unfold readHubWindows
    cases turned : turn walk (read n (some walk.request)) with
    | next next =>
      obtain ⟨mc, answer, takes, _⟩ := turn_next turned
      exact ih (.next reached turned) (takes.short short (steady _ _ _ _ reached answer).1)
    | ended result taken =>
      rw [turned] at shape
      generalize answer : read n (some walk.request) = given at shape
      cases shape with
      | failed => exact short
      | whole first long => exact short.append (short_chunks _)
      | moved => exact short
      | empty => exact short
      | overrun takes => exact takes.short short (steady _ _ _ _ reached answer).1
      | last takes => exact takes.short short (steady _ _ _ _ reached answer).1

/-- A walk whose hubs are distinct, and as many as the list was said to have. -/
structure Walk.Complete (walk : Walk) : Prop where
  distinct : (walk.taken.flatten.map Hub.name).Nodup
  total : ∀ total, walk.total = some total → walk.taken.flatten.length = total

theorem Walk.Sound.complete (sound : walk.Sound) (total : ∀ total, walk.total = some total → walk.start = total) :
    walk.Complete := by
  refine ⟨?_, fun size told => sound.start ▸ total size told⟩
  have nodup := sound.nodup
  rw [sound.seen] at nodup
  exact nodup_reverse.mp nodup

theorem windows_complete (steady : Steady read) (fuel : Nat) {walk last : Walk} (reached : Reached read again n walk)
    (done : (readHubWindows read fuel n walk).ended = some (.done last)) : last.Complete := by
  induction fuel generalizing n walk with
  | zero => cases done
  | succ fuel ih =>
    have shape := turnOf walk (read n (some walk.request))
    unfold readHubWindows at done
    have sound := reached.sound
    cases turned : turn walk (read n (some walk.request)) with
    | next next =>
      rw [turned] at done
      exact ih (.next reached turned) done
    | ended result taken =>
      rw [turned] at done shape
      injection done with done
      subst done
      generalize answer : read n (some walk.request) = given at shape
      cases shape with
      | @empty mc agrees empty short =>
        apply (sound.told mc).complete
        intro total told
        rw [told, sound.count] at short
        have most : total ≤ walk.start := Nat.le_of_not_lt (of_decide_eq_false short)
        by_cases later : 0 < walk.start
        · have least : ¬total < walk.start := fun less => (steady _ _ _ _ reached answer).2 ⟨later, agrees, empty, total, told, less⟩
          exact Nat.le_antisymm (Nat.le_of_not_lt least) most
        · have none_ : walk.start = 0 := Nat.eq_zero_of_not_pos later
          exact none_.trans (Nat.le_zero.mp (none_ ▸ most)).symm
      | last takes reached =>
        apply (takes.sound sound).complete
        intro total told
        rw [told] at reached
        exact not_not.mp (of_decide_eq_false reached)

theorem windows_moved (fuel : Nat) (reached : Reached read false n walk)
    (moved : (readHubWindows read fuel n walk).ended = some .moved) : Reached read true (readHubWindows read fuel n walk).requests .begin_ := by
  induction fuel generalizing n walk with
  | zero => cases moved
  | succ fuel ih =>
    unfold readHubWindows at moved ⊢
    cases turned : turn walk (read n (some walk.request)) with
    | next next =>
      rw [turned] at moved
      exact ih (.next reached turned) moved
    | ended result taken =>
      rw [turned] at moved
      injection moved with moved
      exact .again reached (moved ▸ turned)

theorem twice_short (steady : Steady read) (fuel : Nat) : Short (readTwice read fuel).taken := by
  have none_ : Short Walk.begin_.taken := fun _ mem => by cases mem
  have first := windows_short steady fuel .first none_
  unfold readTwice
  simp only
  split
  · rename_i moved
    exact first.append (windows_short steady fuel (windows_moved fuel .first moved) none_)
  · exact first

theorem twice_complete (steady : Steady read) (fuel : Nat) {last : Walk}
    (done : (readTwice read fuel).ended = some (.done last)) : last.Complete := by
  unfold readTwice at done
  simp only at done
  split at done
  · rename_i moved
    exact windows_complete steady fuel (windows_moved fuel .first moved) done
  · exact windows_complete steady fuel .first done

theorem taken_grows (fuel more n : Nat) (walk : Walk) :
    (readHubWindows read fuel n walk).taken <+: (readHubWindows read (fuel + more) n walk).taken := by
  induction fuel generalizing n walk with
  | zero =>
    induction more generalizing n walk with
    | zero => exact prefix_rfl
    | succ more ih =>
      have shape := turnOf walk (read n (some walk.request))
      unfold readHubWindows
      cases turned : turn walk (read n (some walk.request)) with
      | next next =>
        obtain ⟨mc, _, takes, _⟩ := turn_next turned
        have longer : walk.taken <+: next.taken := takes.taken ▸ prefix_append ..
        exact longer.trans (ih (n + 1) next)
      | ended result taken =>
        rw [turned] at shape
        generalize read n (some walk.request) = given at shape
        cases shape with
        | failed => exact prefix_rfl
        | whole => exact prefix_append ..
        | moved => exact prefix_rfl
        | empty => exact prefix_rfl
        | overrun takes => exact takes.taken ▸ prefix_append ..
        | last takes => exact takes.taken ▸ prefix_append ..
  | succ fuel ih =>
    rw [Nat.add_right_comm]
    unfold readHubWindows
    cases turn walk (read n (some walk.request)) with
    | next next => exact ih (n + 1) next
    | ended result taken => exact prefix_rfl

theorem windows_stable {fuel n : Nat} {result : HubListRead} (ended : (readHubWindows read fuel n walk).ended = some result)
    (more : Nat) : readHubWindows read (fuel + more) n walk = readHubWindows read fuel n walk := by
  induction fuel generalizing n walk with
  | zero => cases ended
  | succ fuel ih =>
    rw [Nat.add_right_comm]
    unfold readHubWindows at ended ⊢
    cases turned : turn walk (read n (some walk.request)) with
    | next next =>
      rw [turned] at ended
      exact ih ended
    | ended result taken => rfl

theorem Reached.windows (reached : Reached read again n walk) :
    ∃ first used, (again = false → first = 0) ∧
      (again = true → ∃ enough taken, ∀ more, readHubWindows read (enough + more) 0 .begin_ = ⟨some .moved, first, taken⟩) ∧
      ∀ fuel, readHubWindows read (used + fuel) first .begin_ = readHubWindows read fuel n walk := by
  induction reached with
  | first => exact ⟨0, 0, fun _ => rfl, fun no => (Bool.noConfusion no), fun fuel => by rw [Nat.zero_add]⟩
  | next _ turned ih =>
    obtain ⟨first, used, zero, before, eq⟩ := ih
    refine ⟨first, used + 1, zero, before, ?_⟩
    intro fuel
    rw [Nat.add_assoc, Nat.add_comm 1 fuel, eq, readHubWindows, turned]
  | @again n walk taken _ turned ih =>
    obtain ⟨first, used, zero, _, eq⟩ := ih
    refine ⟨n + 1, 0, fun no => (Bool.noConfusion no), ?_, fun fuel => by rw [Nat.zero_add]⟩
    intro _
    refine ⟨used + 1, taken, ?_⟩
    intro more
    have here := eq (more + 1)
    rw [zero rfl] at here
    rw [Nat.add_assoc, Nat.add_comm 1 more, here, readHubWindows, turned]

theorem Reached.taken (reached : Reached read again n walk) (fuel : Nat) :
    ∃ enough, ∀ run ∈ (readHubWindows read fuel n walk).taken, run ∈ (readTwice read enough).taken := by
  obtain ⟨first, used, zero, before, eq⟩ := reached.windows
  cases again with
  | false =>
    refine ⟨used + fuel, ?_⟩
    intro run mem
    rw [← eq, zero rfl] at mem
    unfold readTwice
    simp only
    split
    · exact mem_append_left _ mem
    · exact mem
  | true =>
    obtain ⟨enough, taken, moved⟩ := before rfl
    refine ⟨enough + (used + fuel), ?_⟩
    intro run mem
    rw [← eq] at mem
    have later := (taken_grows (used + fuel) enough first .begin_).subset mem
    rw [Nat.add_comm] at later
    unfold readTwice
    simp only [moved]
    exact mem_append_right _ later

theorem Reached.done {walk last : Walk} {taken : List (List Hub)} (reached : Reached read again n walk)
    (turned : turn walk (read n (some walk.request)) = .ended (.done last) taken) :
    ∃ enough, (readTwice read enough).ended = some (.done last) := by
  obtain ⟨first, used, zero, before, eq⟩ := reached.windows
  have ends : readHubWindows read (used + 1) first .begin_ = ⟨some (.done last), n + 1, taken⟩ := by
    rw [eq, readHubWindows, turned]
  cases again with
  | false =>
    rw [zero rfl] at ends
    refine ⟨used + 1, ?_⟩
    unfold readTwice
    simp only [ends]
  | true =>
    obtain ⟨enough, taken, moved⟩ := before rfl
    refine ⟨enough + (used + 1), ?_⟩
    have stable := windows_stable (congrArg Windows.ended ends) enough
    unfold readTwice
    simp only [moved]
    rw [Nat.add_comm, stable, ends]

theorem Overlong.taken (long : Overlong walk mc) :
    (∃ next, turn walk (some mc) = .next next ∧ mc.hub ∈ next.taken) ∨
      ∃ result taken, turn walk (some mc) = .ended result taken ∧ mc.hub ∈ taken := by
  have some_ : mc.hub ≠ [] := ne_nil_of_length_pos (Nat.zero_lt_of_lt long.long)
  obtain ⟨seen, held⟩ := Option.isSome_iff_exists.mp long.new
  have there : mc.hub ∈ ((walk.told mc).take seen mc.hub).taken := mem_append_right _ (mem_singleton_self _)
  rw [long.agrees.turn_eq (fun first => absurd first (Nat.ne_of_gt long.later))]
  unfold window
  rw [if_neg (fun none_ => some_ (List.isEmpty_iff.mp none_))]
  have kept : seeAll (walk.told mc).seen mc.hub = some seen := held
  simp only [kept]
  cases ((walk.told mc).take seen mc.hub).finished mc.hub.length with
  | false => exact .inl ⟨_, rfl, there⟩
  | true =>
    cases ((walk.told mc).take seen mc.hub).total.any (((walk.told mc).take seen mc.hub).start ≠ ·) with
    | true => exact .inr ⟨_, _, rfl, there⟩
    | false => exact .inr ⟨_, _, rfl, there⟩

theorem Understated.done (sound : walk.Sound) (short : Understated walk mc) :
    turn walk (some mc) = .ended (.done (walk.told mc)) walk.taken := by
  obtain ⟨total, told, less⟩ := short.short
  have reached : (walk.told mc).total.any ((walk.told mc).seen.length < ·) = false := by
    rw [told]
    exact decide_eq_false (Nat.not_lt_of_lt (sound.count ▸ less))
  rw [short.agrees.turn_eq (fun first => absurd first (Nat.ne_of_gt short.later)), window, short.empty, isEmpty_nil, if_pos rfl,
    if_neg (Bool.eq_false_iff.mp reached)]
  rfl

end
section
variable {read : Read} {list : List Hub}

/-- One list whose hubs are distinct, paged: the offset is echoed and the size is the list's, where
it is reported. -/
structure Paged (read : Read) (list : List Hub) : Prop where
  distinct : (list.map Hub.name).Nodup
  answers : ∀ n req, ∃ mc, read n (some req) = some mc ∧ mc.offset = req.start ∧ mc.hub = (list.drop req.start).take req.size ∧
    (mc.totalSize = 0 ∨ mc.totalSize = list.length)

def Unpaged (read : Read) (list : List Hub) : Prop := ∀ n req, ∃ mc, read n req = some mc ∧ mc.hub = list

/-- A walk over a paged list that has come this far. -/
structure Along (list : List Hub) (walk : Walk) : Prop where
  sound : walk.Sound
  taken : walk.taken.flatten = list.take walk.start
  inside : walk.start ≤ list.length
  total : walk.total = none ∨ walk.total = some list.length

variable {mc : MediaContainer}

theorem answered_eq (size : mc.totalSize = 0 ∨ mc.totalSize = list.length) :
    answered mc = none ∨ answered mc = some list.length := by
  unfold answered
  rcases size with size | size
  · rw [size]
    exact .inl rfl
  · rw [size]
    split
    · exact .inr rfl
    · exact .inl rfl

variable {walk : Walk}

theorem Along.told (along : Along list walk) (size : answered mc = none ∨ answered mc = some list.length) :
    sizeMoved walk.total (answered mc) = false ∧ Along list (walk.told mc) := by
  have total : (walk.told mc).total = none ∨ (walk.told mc).total = some list.length := by
    change walk.total.or (answered mc) = none ∨ walk.total.or (answered mc) = _
    rcases along.total with was | was
    · rw [was, Option.none_or]
      exact size
    · rw [was]
      exact .inr rfl
  refine ⟨?_, along.sound.told mc, along.taken, along.inside, total⟩
  rcases along.total with was | was <;> rcases size with now | now <;> rw [was, now] <;> simp [sizeMoved]

theorem Along.take (distinct : (list.map Hub.name).Nodup) (along : Along list walk) :
    ∃ seen, seeAll walk.seen ((list.drop walk.start).take hubWindow) = some seen ∧
      Along list (walk.take seen ((list.drop walk.start).take hubWindow)) := by
  have upto : list.take walk.start ++ (list.drop walk.start).take hubWindow = list.take (walk.start + hubWindow) := by
    rw [take_add]
  have nodup : ((((list.drop walk.start).take hubWindow).map Hub.name).reverse ++ walk.seen).Nodup := by
    rw [along.sound.seen, along.taken, ← reverse_append, ← map_append, upto, nodup_reverse]
    exact distinct.sublist ((take_sublist _ _).map _)
  have held := seeAll_of_nodup nodup
  have taken : (walk.taken ++ [(list.drop walk.start).take hubWindow]).flatten = list.take (walk.start + hubWindow) := by
    rw [flatten_append, flatten_singleton, along.taken, upto]
  have count : ((list.drop walk.start).take hubWindow).length = min hubWindow (list.length - walk.start) := by
    rw [length_take, length_drop]
  have inside := along.inside
  refine ⟨_, held, ⟨?_, ?_, nodup⟩, ?_, ?_, along.total⟩
  · change walk.start + _ = ((walk.taken ++ [_]).flatten).length
    rw [taken, count, length_take]
    omega
  · change _ = (((walk.taken ++ [_]).flatten).map Hub.name).reverse
    rw [taken, ← upto, map_append, reverse_append, ← along.taken, ← along.sound.seen]
    rfl
  · change (walk.taken ++ [_]).flatten = list.take (walk.start + _)
    rw [taken, count]
    apply take_eq_take_iff.mpr
    omega
  · change walk.start + _ ≤ list.length
    omega

theorem windows_paged (paged : Paged read list) (fuel n : Nat) (along : Along list walk)
    (enough : list.length < walk.start + fuel) :
    ∃ last, (readHubWindows read fuel n walk).ended = some (.done last) ∧ last.taken.flatten = list := by
  induction fuel generalizing n walk with
  | zero => exact absurd enough (Nat.not_lt_of_le along.inside)
  | succ fuel ih =>
    obtain ⟨mc, answer, offset, hubs, size⟩ := paged.answers n walk.request
    have hubs : mc.hub = (list.drop walk.start).take hubWindow := hubs
    obtain ⟨agreed, told⟩ := along.told (answered_eq size)
    have agrees : walk.Agrees mc := ⟨fun _ => offset, agreed⟩
    have fits : mc.hub.length ≤ hubWindow := by
      rw [hubs]
      exact length_take_le ..
    have count : mc.hub.length = min hubWindow (list.length - walk.start) := by rw [hubs, length_take, length_drop]
    have inside := along.inside
    have positive : 0 < hubWindow := by decide
    unfold readHubWindows
    rw [answer, agrees.turn_eq (fun _ => fits), window]
    by_cases empty : mc.hub = []
    · rw [if_pos (List.isEmpty_iff.mpr empty)]
      have none_ : mc.hub.length = 0 := length_eq_zero_iff.mpr empty
      have all : walk.start = list.length := by omega
      have reached : (walk.told mc).total.any ((walk.told mc).seen.length < ·) = false := by
        rcases told.total with total | total
        · rw [total]
          rfl
        · rw [total, told.sound.count]
          exact decide_eq_false (Nat.not_lt_of_le (Nat.le_of_eq all.symm))
      rw [if_neg (Bool.eq_false_iff.mp reached)]
      refine ⟨walk.told mc, rfl, ?_⟩
      change walk.taken.flatten = list
      rw [along.taken, all, List.take_length]
    · rw [if_neg (fun none_ => empty (List.isEmpty_iff.mp none_))]
      obtain ⟨seen, held, next⟩ := told.take paged.distinct
      have eq : (list.drop (walk.told mc).start).take hubWindow = mc.hub := hubs.symm
      rw [eq] at held next
      have further : walk.start < ((walk.told mc).take seen mc.hub).start :=
        Nat.lt_add_of_pos_right (length_pos_iff.mpr empty)
      have start : ((walk.told mc).take seen mc.hub).start = walk.start + mc.hub.length := rfl
      simp only [held]
      cases finished : ((walk.told mc).take seen mc.hub).finished mc.hub.length with
      | false => exact ih (n + 1) next (by omega)
      | true =>
        have all : ((walk.told mc).take seen mc.hub).start = list.length := by
          unfold Walk.finished at finished
          rcases next.total with total | total
          · rw [total] at finished
            have less := of_decide_eq_true finished
            omega
          · rw [total] at finished
            have least := of_decide_eq_true finished
            omega
        have reached : ((walk.told mc).take seen mc.hub).total.any (((walk.told mc).take seen mc.hub).start ≠ ·) = false := by
          rcases next.total with total | total
          · rw [total]
            rfl
          · rw [total, all]
            exact decide_eq_false (not_not.mpr rfl)
        simp only [reached]
        refine ⟨_, rfl, ?_⟩
        rw [next.taken, all, List.take_length]

/-- An answer that holds the whole list is the list, or moves it. -/
inductive Wholly (list : List Hub) : HubListRead → Prop where
  | done {walk : Walk} (all : walk.taken.flatten = list) : Wholly list (.done walk)
  | whole : Wholly list (.whole list)
  | moved : Wholly list .moved

theorem Unpaged.windows (unpaged : Unpaged read list) (fuel n : Nat) :
    ∃ result, (readHubWindows read (fuel + 2) n .begin_).ended = some result ∧ Wholly list result := by
  obtain ⟨mc, answer, hubs⟩ := unpaged n (some Walk.begin_.request)
  have shape := turnOf Walk.begin_ (read n (some Walk.begin_.request))
  unfold readHubWindows
  cases turned : turn Walk.begin_ (read n (some Walk.begin_.request)) with
  | ended result taken =>
    rw [answer] at shape turned
    rw [turned] at shape
    refine ⟨result, rfl, ?_⟩
    cases shape with
    | whole => exact hubs ▸ .whole
    | moved => exact .moved
    | empty _ empty =>
      rw [← hubs, empty]
      exact .done rfl
    | overrun => exact .moved
    | last takes =>
      apply Wholly.done
      rw [takes.taken, hubs]
      exact append_nil list
  | next next =>
    obtain ⟨first, given, takes, _⟩ := turn_next turned
    -- the second answer holds hubs of the first
    obtain ⟨again, second, eq⟩ := unpaged (n + 1) (some next.request)
    have listed : first.hub = list := by
      rw [answer] at given
      injection given with given
      exact given ▸ hubs
    have sound : next.Sound := takes.sound .begin_
    have known : ∀ hub ∈ list, hub.name ∈ next.seen := by
      intro hub mem
      rw [sound.seen, takes.taken, listed]
      simpa [Walk.begin_] using ⟨hub, mem, rfl⟩
    have repeated : ∀ last, ¬next.Takes again last := by
      intro last more
      obtain ⟨seen, held, _⟩ := more.next
      have nodup := seeAll_nodup sound.nodup held
      rw [seeAll_eq_some held] at nodup
      obtain ⟨hub, mem⟩ := exists_mem_of_ne_nil _ more.some_
      exact disjoint_of_nodup_append nodup (mem_reverse.mpr (mem_map_of_mem mem)) (known hub (eq ▸ mem))
    have ends : ∃ taken, turn next (some again) = .ended .moved taken := by
      have shape := turnOf next (some again)
      cases turned : turn next (some again) with
      | next last =>
        obtain ⟨mc, given, more, _⟩ := turn_next turned
        injection given with given
        exact absurd (given ▸ more) (repeated last)
      | ended result taken =>
        rw [turned] at shape
        cases shape with
        | whole start => exact absurd start (Nat.ne_of_gt takes.positive)
        | moved => exact ⟨_, rfl⟩
        | empty _ empty => exact absurd (listed.trans (eq.symm.trans empty)) takes.some_
        | overrun more => exact absurd more (repeated _)
        | last more => exact absurd more (repeated _)
    obtain ⟨taken, ends⟩ := ends
    refine ⟨.moved, ?_, .moved⟩
    simp only
    unfold readHubWindows
    rw [second, ends]

end

/-- What the read of a list is for: runs no longer than a window, the list of a server that holds
still folded once, and nothing folded twice or left out of a list read in windows. -/
structure Folds (read : Read) : Prop where
  bounded : ∀ (S : Type) (take : S → List Hub → S) (fresh : S) fuel, Short (readHubList take fresh read fuel).taken
  exact_ : ∀ list, Paged read list ∨ Unpaged read list → ∃ enough, ∀ more, ∃ runs, runs.flatten = list ∧
    ∀ (S : Type) (take : S → List Hub → S) (fresh : S), (readHubList take fresh read (enough + more)).result = some (some (foldRuns take fresh runs))
  windowed : ∀ fuel walk, (readTwice read fuel).ended = some (.done walk) → walk.Complete

theorem folds_exactly (read : Read) (list : List Hub) (served : Paged read list ∨ Unpaged read list) :
    ∃ enough, ∀ more, ∃ runs, runs.flatten = list ∧ ∀ (S : Type) (take : S → List Hub → S) (fresh : S),
      (readHubList take fresh read (enough + more)).result = some (some (foldRuns take fresh runs)) := by
  rcases served with paged | unpaged
  · refine ⟨list.length + 1, ?_⟩
    intro more
    have along : Along list .begin_ := ⟨.begin_, rfl, Nat.zero_le _, .inl rfl⟩
    obtain ⟨last, done, all⟩ := windows_paged paged (list.length + 1 + more) 0 along (by omega)
    refine ⟨last.taken, all, ?_⟩
    intro S take fresh
    have twice : (readTwice read (list.length + 1 + more)).ended = some (.done last) := by
      unfold readTwice
      simp only [done]
    unfold readHubList
    simp only [twice]
  · refine ⟨2, ?_⟩
    intro more
    rw [Nat.add_comm]
    have twice : ∃ result, (readTwice read (more + 2)).ended = some result ∧ Wholly list result := by
      obtain ⟨result, ended, wholly⟩ := unpaged.windows more 0
      obtain ⟨second, ended', wholly'⟩ := unpaged.windows more (readHubWindows read (more + 2) 0 .begin_).requests
      unfold readTwice
      simp only
      split
      · exact ⟨second, ended', wholly'⟩
      · exact ⟨result, ended, wholly⟩
    obtain ⟨result, ended, wholly⟩ := twice
    cases wholly with
    | @done walk all =>
      refine ⟨walk.taken, all, ?_⟩
      intro S take fresh
      unfold readHubList
      simp only [ended]
    | whole =>
      refine ⟨Blocks.chunks hubWindow list, Blocks.chunks_flatten (by decide) list, ?_⟩
      intro S take fresh
      unfold readHubList
      simp only [ended]
    | moved =>
      obtain ⟨mc, answer, hubs⟩ := unpaged (readTwice read (more + 2)).requests none
      refine ⟨Blocks.chunks hubWindow list, Blocks.chunks_flatten (by decide) list, ?_⟩
      intro S take fresh
      unfold readHubList
      simp only [ended, answer, hubs]

theorem list_short {read : Read} (steady : Steady read) (S : Type) (take : S → List Hub → S) (fresh : S) (fuel : Nat) :
    Short (readHubList take fresh read fuel).taken := by
  have twice := twice_short steady fuel
  unfold readHubList
  simp only
  split
  · exact twice
  · exact twice
  · exact twice
  · exact twice
  · split
    · exact twice
    · exact twice.append (short_chunks _)

theorem taken_of_twice {read : Read} {fuel : Nat} {run : List Hub} (mem : run ∈ (readTwice read fuel).taken) :
    run ∈ (readHubList (fun (_ : Unit) _ => ()) () read fuel).taken := by
  unfold readHubList
  simp only
  split
  · exact mem
  · exact mem
  · exact mem
  · exact mem
  · split
    · exact mem
    · exact mem_append_left _ mem

/-- The hub list is folded as it is to be exactly when no later window holds more hubs than were
asked for, and none that is empty says the list is shorter than what was read. -/
theorem hub_list_folds (read : Read) : Folds read ↔ Steady read := by
  constructor
  · intro folds again n walk mc reached answer
    constructor
    · intro long
      have held : ∃ fuel, mc.hub ∈ (readHubWindows read fuel n walk).taken := by
        refine ⟨1, ?_⟩
        unfold readHubWindows
        rw [answer]
        rcases long.taken with ⟨next, turned, member⟩ | ⟨result, taken, turned, member⟩
        · rw [turned]
          exact member
        · rw [turned]
          exact member
      obtain ⟨fuel, member⟩ := held
      obtain ⟨enough, all⟩ := reached.taken fuel
      have short := folds.bounded Unit (fun _ _ => ()) () enough mc.hub (taken_of_twice (all mc.hub member))
      exact Nat.not_lt_of_le short long.long
    · intro short
      have sound := reached.sound
      obtain ⟨enough, done⟩ := reached.done (by rw [answer]; exact short.done sound)
      obtain ⟨total, told, less⟩ := short.short
      have count := (folds.windowed enough _ done).total total told
      have start : walk.start = total := sound.start.trans count
      omega
  · intro steady
    exact ⟨list_short steady, folds_exactly read, fun fuel walk done => twice_complete steady fuel done⟩

def namedHubs (first count : Nat) : List Hub := (List.range count).map (fun i => ⟨"", String.singleton (Char.ofNat (first + i))⟩)

/-- A server that answers the second window with one hub too many. -/
def overfull : Read
  | _, some ⟨0, _⟩ => some ⟨0, 0, namedHubs 65 16⟩
  | _, _ => some ⟨16, 0, namedHubs 97 17⟩

theorem overfull_window_is_taken : ¬Folds overfull := by
  intro folds
  have short := folds.bounded Unit (fun _ _ => ()) () 2
  have long : ¬∀ run ∈ (readHubList (fun (_ : Unit) _ => ()) () overfull 2).taken, run.length ≤ hubWindow := by decide +kernel
  exact long short

end PlxNative.Paging.HubList
