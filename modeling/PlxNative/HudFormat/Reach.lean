import Mathlib.Data.Finset.Insert
import PlxNative.Lib.Search

/-! The states a HUD layout can be in, and the commands none of them places. -/
namespace PlxNative.HudFormat
open List Relation Search
attribute [local instance (high)] List.decidableBAll

structure CondTerm where
  negated : Bool
  name : String

structure Cond where
  terms : List CondTerm

mutual

/-- A typed value; a number keeps its bits. -/
inductive Val where
  | bool (b : Bool)
  | int (n : Int)
  | num (bits : UInt64)
  | text (s : String)
  | name (s : String)
  | token (s : String)
  | ref (s : String)
  | cond (c : Cond)
  | keyed (base : Val) (cases : List (Cond × Val))
  | list (items : List Val)
  | object (o : Object)

/-- An object walked against a node of the table, its fields in document order. -/
inductive Object where
  | mk (node : String) (fields : List (String × Val))

end

namespace Val

def asStr : Val → Option String
  | .text s => some s
  | .name s => some s
  | .token s => some s
  | .ref s => some s
  | _ => none

def asObject : Val → Option Object
  | .object o => some o
  | _ => none

end Val

namespace Object

def node : Object → String
  | .mk node _ => node

def fields : Object → List (String × Val)
  | .mk _ fields => fields

def get (o : Object) (key : String) : Option Val := (o.fields.find? fun field => field.1 == key).map Prod.snd

def str (o : Object) (key : String) : Option String := (o.get key).bind Val.asStr

end Object

/-- A command the app folds into More's root, with the section it opens. -/
structure Fold where
  command : String
  section_ : Option String
deriving DecidableEq

def foldable : List Fold :=
  [⟨"previous", none⟩, ⟨"next", none⟩, ⟨"open_tracks", none⟩, ⟨"toggle_section", some "chapters"⟩,
    ⟨"toggle_section", some "info"⟩, ⟨"from_beginning", none⟩, ⟨"go_to_detail", none⟩]

/-- A bit of the open sections, and the name that commands use. -/
def sections : List (UInt8 × String) := [(1, "chapters"), (2, "info")]

def foldList (flags : List Bool) : List Fold := (foldable.zip flags).filterMap fun f => if f.2 then some f.1 else none

inductive Slot where
  | discs
  | upNext
  | skip
deriving DecidableEq

def slots : List Slot := [.discs, .upNext, .skip]

def Slot.index : Slot → Nat
  | .discs => 0
  | .upNext => 1
  | .skip => 2

structure State where
  openSections : UInt8
  slot : Slot
deriving DecidableEq

namespace State

def root : State := ⟨0, .discs⟩

def index (s : State) : Nat := s.openSections.toNat * slots.length + s.slot.index

end State

structure Valuation where
  chapters : Bool
  episode : Bool
  pair : Bool
deriving DecidableEq

structure Control where
  item : Object
  command : String
  segment : Option String
  gates : List Cond

def Control.section_ (c : Control) : Option String := c.item.str "section"

def carries (control : Control) (fold : Fold) : Bool :=
  control.command == fold.command && (match fold.section_ with
    | none => true
    | some s => control.section_ == some s)

structure Layout where
  controls : List Control
  bandIds : Finset String
  segmentIds : Finset String
  laid : UInt8
  modal : Bool
  replaces : Finset String
  namedChapters : Bool
  namedEpisode : Bool
  namedPair : Bool

section

mutual

/-- A strip card's cells are no focus stops, and no control is read from them. -/
def collect (this : Layout) (gates : List Cond) (segment : Option String) : Object → Layout
  | .mk node fields =>
    let object := Object.mk node fields
    let gates := match object.get "when" with
      | some (.cond cond) => gates ++ [cond]
      | _ => gates
    if node = "item" then
      { this with controls := this.controls ++ [⟨object, (object.str "command").getD "", segment, gates⟩] }
    else if node = "card" then this
    else if node = "segment" then
      let segment := object.str "id"
      let this := match segment with
        | some id => { this with segmentIds := insert id this.segmentIds }
        | none => this
      collectFields this gates segment fields
    else collectFields this gates segment fields

def collectIn (this : Layout) (gates : List Cond) (segment : Option String) : Val → Layout
  | .object object => collect this gates segment object
  | .list items => collectItems this gates segment items
  | _ => this

def collectItems (this : Layout) (gates : List Cond) (segment : Option String) : List Val → Layout
  | [] => this
  | item :: items => collectItems (collectIn this gates segment item) gates segment items

def collectFields (this : Layout) (gates : List Cond) (segment : Option String) : List (String × Val) → Layout
  | [] => this
  | (_, value) :: rest => collectFields (collectIn this gates segment value) gates segment rest

end

def note (cond : Cond) (geometry : Bool) (named : Bool × Bool) : Bool × Bool :=
  cond.terms.foldl (fun named term =>
    if term.name = "chapters.present" then (true, named.2)
    else if term.name = "title.is_episode" && geometry then (named.1, true)
    else named) named

/-- A keyed value whose base is paint names no episode. -/
def paint : Val → Bool
  | .token _ => true
  | .ref _ => true
  | .bool _ => true
  | _ => false

def noteField (named : Bool × Bool) : Val → Bool × Bool
  | .cond cond => note cond true named
  | .keyed base cases => cases.foldl (fun named c => note c.1 (!paint base) named) named
  | _ => named

mutual

/-- Every object under the root, parents before children. -/
def scanNamed (named : Bool × Bool) : Object → Bool × Bool
  | .mk _ fields => scanFields (fields.foldl (fun named field => noteField named field.2) named) fields

def scanIn (named : Bool × Bool) : Val → Bool × Bool
  | .object object => scanNamed named object
  | .list items => scanItems named items
  | _ => named

def scanItems (named : Bool × Bool) : List Val → Bool × Bool
  | [] => named
  | item :: items => scanItems (scanIn named item) items

def scanFields (named : Bool × Bool) : List (String × Val) → Bool × Bool
  | [] => named
  | (_, value) :: rest => scanFields (scanIn named value) rest

end

/-- The sections that a band lays out: its `when` holds the panel's name. -/
def laidBy (laid : UInt8) (band : Object) : UInt8 :=
  match band.get "when" with
  | some (.cond cond) => sections.foldl (fun laid s =>
    if cond.terms.any (fun t => !t.negated && t.name == "panel." ++ s.2) then laid ||| s.1 else laid) laid
  | _ => laid

namespace Layout

def read (layout : Object) : Layout :=
  let bands := match layout.get "block" with
    | some (.list bands) => bands.filterMap Val.asObject
    | _ => []
  let replaces := match layout.get "up_next" with
    | some (.object upNext) => (match upNext.get "replaces" with
      | some (.list names) => names.filterMap Val.asStr
      | _ => [])
    | _ => []
  let this := collect
    { controls := [], bandIds := bands.foldl (fun ids band => match band.str "id" with
        | some id => insert id ids
        | none => ids) ∅, segmentIds := ∅, laid := bands.foldl laidBy 0, modal := layout.str "sections" != some "inline",
      replaces := replaces.foldl (fun names name => insert name names) ∅, namedChapters := false, namedEpisode := false,
      namedPair := false } [] none layout
  let named := scanNamed (false, false) layout
  { this with
    namedChapters := named.1
    namedEpisode := named.2
    namedPair := this.controls.any fun c => c.command == "previous" || c.command == "next" }

end Layout

end
namespace Layout
variable (l : Layout)

def dim (named : Bool) : List Bool := if named then [false, true] else [true]

def valuations : List Valuation :=
  (dim l.namedChapters).flatMap fun chapters => (dim l.namedEpisode).flatMap fun episode =>
    (dim l.namedPair).map fun pair => ⟨chapters, episode, pair⟩

def truth (name : String) (state : State) (v : Valuation) (paused : Bool) : Bool :=
  match name with
  | "panel.chapters" => state.openSections &&& 1 != 0
  | "panel.info" => state.openSections &&& 2 != 0
  | "sections" => state.openSections != 0
  | "chapters.present" => v.chapters
  | "title.is_episode" => v.episode
  | "transport.paused" => paused
  | "slot.discs" => state.slot == .discs
  | "slot.up_next" => state.slot == .upNext
  | "slot.skip" => state.slot == .skip
  | _ => false

def holds (cond : Cond) (state : State) (v : Valuation) (paused : Bool) : Bool :=
  cond.terms.all fun term => truth term.name state v paused != term.negated

/-- The first `when` on the way to a control that does not hold. -/
def blocker (control : Control) (state : State) (v : Valuation) (paused : Bool) : Option Cond :=
  control.gates.find? fun gate => !holds gate state v paused

def placed (control : Control) (state : State) (v : Valuation) : Bool :=
  let replaced := state.slot != .discs && control.segment.any (· ∈ l.replaces)
  !replaced && [false, true].any fun paused => (blocker control state v paused).isNone

def enabled (fold : Fold) (v : Valuation) : Bool :=
  let laid := fun name => sections.any fun s => s.2 == name && l.laid &&& s.1 != 0
  match fold.command, fold.section_ with
  | "previous", _ => v.pair
  | "next", _ => v.pair
  | "toggle_section", some name => laid name && (name != "chapters" || v.chapters)
  | _, _ => true

def rootMore : List Control :=
  l.controls.filter fun c => c.command == "open_more" && (match c.item.str "page" with
    | none => true
    | some page => page == "root")

def moreIsPlaced (v : Valuation) : Bool := l.rootMore.any fun c => l.placed c State.root v

/-- A control that opens the section is placed. -/
def opener (state : State) (v : Valuation) (name : String) : Bool :=
  l.controls.any fun c => c.command == "toggle_section" && c.section_ == some name && l.placed c state v

def opens (state : State) (v : Valuation) (byFold : UInt8) : List UInt8 :=
  let moreHere := byFold != 0 && l.rootMore.any fun c => l.placed c state v
  (sections.filterMap fun s =>
    if l.laid &&& s.1 != 0 && (s.2 != "chapters" || v.chapters) && (l.opener state v s.2 || moreHere && byFold &&& s.1 != 0) then
      some (if state.openSections &&& s.1 != 0 then state.openSections &&& ~~~s.1
        else if l.modal then s.1 else state.openSections ||| s.1)
    else none) ++
  -- BACK closes any one of the open sections
  (sections.filterMap fun s => if state.openSections &&& s.1 != 0 then some (state.openSections &&& ~~~s.1) else none)

def successors (state : State) (v : Valuation) (byFold : UInt8) : List State :=
  ((l.opens state v byFold).flatMap fun sections_ =>
    (if sections_ == 0 then slots else [.discs]).map fun slot => ⟨sections_, slot⟩) ++
  (if state.openSections == 0 then slots.map fun slot => ⟨0, slot⟩ else [])

/-- One successor: a place outside the table of the seen ones is none. -/
def visit (found : List Bool × List State) (to_ : State) : Option (List Bool × List State) :=
  match found.1[to_.index]? with
  | none => none
  | some true => some found
  | some false => some (found.1.set to_.index true, found.2 ++ [to_])

def walkLoop (v : Valuation) (byFold : UInt8) : Nat → Nat → List Bool → List State → Option (List State)
  | 0, _, _, _ => none
  | fuel + 1, next, seen, order => match order[next]? with
    | none => some order
    | some state => ((l.successors state v byFold).foldlM visit (seen, order)).bind fun found =>
      walkLoop v byFold fuel (next + 1) found.1 found.2

def walk (v : Valuation) (byFold : UInt8) : Option (List State) :=
  l.walkLoop v byFold (4 * slots.length + 1) 0 ((List.replicate (4 * slots.length) false).set State.root.index true) [State.root]

def explore (v : Valuation) : Option (List State) := l.walk v 0

def exploreWithFolds (v : Valuation) : Option (List State) :=
  (l.explore v).bind fun plain =>
    let folded := (sections.filter fun s =>
      l.laid &&& s.1 != 0 && (s.2 != "chapters" || v.chapters) && !plain.any (fun state => l.opener state v s.2)).foldl
        (fun bits s => bits ||| s.1) 0
    if folded == 0 then some plain else l.walk v folded

def accumulateFolds (v : Valuation) (reachable : List State) (folded : List Bool) : List Bool :=
  (foldable.zip folded).map fun f =>
    f.2 || (!(reachable.any fun s => l.controls.any fun c => carries c f.1 && l.placed c s v) && l.enabled f.1 v)

def folds : Option (List Fold) :=
  (l.valuations.foldlM (fun folded v => (l.explore v).map fun reachable => l.accumulateFolds v reachable folded)
    (List.replicate foldable.length false)).map foldList

end Layout
section

def State.Known (s : State) : Prop := s.openSections = 0 ∨ s.openSections = 1 ∨ s.openSections = 2 ∨ s.openSections = 3

def allStates : List State := [0, 1, 2, 3].flatMap fun sections_ => slots.map fun slot => ⟨sections_, slot⟩

theorem mem_slots (slot : Slot) : slot ∈ slots := by
  cases slot <;> decide

theorem mem_allStates {s : State} : s ∈ allStates ↔ s.Known := by
  obtain ⟨sections_, slot⟩ := s
  simp only [allStates, mem_flatMap, mem_map, State.mk.injEq, mem_cons, not_mem_nil, or_false]
  constructor
  · rintro ⟨o, among, _, -, rfl, -⟩
    exact among
  · exact fun among => ⟨sections_, among, slot, mem_slots slot, rfl, rfl⟩

theorem index_lt {s : State} (known : s.Known) : s.index < 4 * slots.length := by
  have bound : ∀ s ∈ allStates, s.index < 4 * slots.length := by decide
  exact bound s (mem_allStates.mpr known)

theorem index_inj {s t : State} (known : s.Known) (known_ : t.Known) (eq : s.index = t.index) : s = t := by
  have apart : ∀ s ∈ allStates, ∀ t ∈ allStates, s.index = t.index → s = t := by decide
  exact apart s (mem_allStates.mpr known) t (mem_allStates.mpr known_) eq

variable {l : Layout} {v : Valuation} {byFold : UInt8} {s t : State}

theorem mem_successors : t ∈ l.successors s v byFold ↔
    (t.openSections ∈ l.opens s v byFold ∧ (t.openSections = 0 ∨ t.slot = .discs)) ∨ s.openSections = 0 ∧ t.openSections = 0 := by
  obtain ⟨sections_, slot⟩ := t
  unfold Layout.successors
  rw [mem_append, mem_flatMap]
  refine or_congr ?_ ?_
  · constructor
    · rintro ⟨o, mem, made⟩
      obtain ⟨slot, among, eq⟩ := mem_map.mp made
      cases eq
      refine ⟨mem, ?_⟩
      split at among
      case isTrue none_ => exact .inl (eq_of_beq none_)
      case isFalse => exact .inr (mem_singleton.mp among)
    · rintro ⟨mem, either⟩
      refine ⟨sections_, mem, mem_map.mpr ⟨slot, ?_, rfl⟩⟩
      split
      case isTrue => exact mem_slots slot
      case isFalse some_ =>
        rcases either with none_ | discs
        · exact absurd (beq_iff_eq.mpr none_) some_
        · exact mem_singleton.mpr discs
  · split
    case isTrue none_ =>
      rw [mem_map]
      constructor
      · rintro ⟨_, -, eq⟩
        cases eq
        exact ⟨eq_of_beq none_, rfl⟩
      · rintro ⟨-, rfl⟩
        exact ⟨slot, mem_slots slot, rfl⟩
    case isFalse some_ =>
      refine ⟨nofun, fun both => absurd (beq_iff_eq.mpr both.1) some_⟩

theorem toggles_known : ∀ bit ∈ sections.map Prod.fst, ∀ o ∈ ([0, 1, 2, 3] : List UInt8),
    o &&& ~~~bit ∈ ([0, 1, 2, 3] : List UInt8) ∧ o ||| bit ∈ ([0, 1, 2, 3] : List UInt8) ∧ bit ∈ ([0, 1, 2, 3] : List UInt8) := by
  decide

theorem successors_known (known : s.Known) (next : t ∈ l.successors s v byFold) : t.Known := by
  have among : s.openSections ∈ ([0, 1, 2, 3] : List UInt8) := by simpa [State.Known] using known
  rcases mem_successors.mp next with ⟨mem, -⟩ | ⟨-, none_⟩
  · have kept : t.openSections ∈ ([0, 1, 2, 3] : List UInt8) := by
      rcases mem_append.mp mem with opened | closed
      · obtain ⟨sec, listed, made⟩ := mem_filterMap.mp opened
        obtain ⟨closes, opens, alone⟩ := toggles_known sec.1 (mem_map_of_mem listed) _ among
        split at made
        case isTrue =>
          rw [← Option.some.inj made]
          split
          · exact closes
          · split
            · exact alone
            · exact opens
        case isFalse => cases made
      · obtain ⟨sec, listed, made⟩ := mem_filterMap.mp closed
        obtain ⟨closes, -, -⟩ := toggles_known sec.1 (mem_map_of_mem listed) _ among
        split at made
        case isTrue =>
          rw [← Option.some.inj made]
          exact closes
        case isFalse => cases made
    simpa [State.Known] using kept
  · exact .inl none_

/-- The table of the seen ones is of the states listed. -/
structure Agrees (seen : List Bool) (order : List State) : Prop where
  size : seen.length = 4 * slots.length
  known : ∀ s ∈ order, s.Known
  marks : ∀ s : State, s.Known → seen[s.index]? = some (decide (s ∈ order))

variable {order : List State} {seen : List Bool}

theorem visit_agrees (agrees : Agrees seen order) (known : t.Known) :
    ∃ seen', Layout.visit (seen, order) t = some (seen', push order t) ∧ Agrees seen' (push order t) := by
  unfold Layout.visit push
  rw [agrees.marks t known]
  by_cases old : t ∈ order
  · exact ⟨seen, by simp [old], by rwa [if_pos old]⟩
  · refine ⟨seen.set t.index true, by simp [old], ?_⟩
    rw [if_neg old]
    refine ⟨by rw [length_set]; exact agrees.size, fun s mem => ?_, fun s known_ => ?_⟩
    · rcases mem_append.mp mem with before | last
      · exact agrees.known s before
      · exact mem_singleton.mp last ▸ known
    · rw [List.getElem?_set]
      have within : t.index < seen.length := agrees.size ▸ index_lt known
      by_cases eq : t.index = s.index
      · have equal := index_inj known known_ eq
        subst equal
        simp [within]
      · have apart : s ≠ t := fun equal => eq (equal ▸ rfl)
        rw [if_neg eq, agrees.marks s known_]
        simp [apart]

theorem visits_agree (agrees : Agrees seen order) {next : List State}
    (known : ∀ t ∈ next, t.Known) : ∃ seen', next.foldlM Layout.visit (seen, order) = some (seen', next.foldl push order) ∧
      Agrees seen' (next.foldl push order) := by
  induction next generalizing seen order with
  | nil => exact ⟨seen, rfl, agrees⟩
  | cons t next ih =>
    obtain ⟨seen', visited, agrees_⟩ := visit_agrees agrees (known t mem_cons_self)
    obtain ⟨seen'', rest, agrees_⟩ := ih agrees_ fun u mem => known u (mem_cons_of_mem t mem)
    exact ⟨seen'', by rw [foldlM_cons, visited]; exact rest, agrees_⟩

theorem walkLoop_eq {fuel next : Nat} (agrees : Agrees seen order) :
    l.walkLoop v byFold fuel next seen order = search (l.successors · v byFold) fuel next order := by
  induction fuel generalizing next seen order with
  | zero => rfl
  | succ fuel ih =>
    unfold Layout.walkLoop search
    cases here : order[next]? with
    | none => rfl
    | some state =>
      have known := agrees.known state (List.mem_of_getElem? here)
      have onward : ∀ t ∈ l.successors state v byFold, t.Known := fun t => successors_known known
      obtain ⟨seen', visited, agrees_⟩ := visits_agree agrees onward
      simp only [visited]
      exact ih agrees_

abbrev Leads (l : Layout) (v : Valuation) (byFold : UInt8) (s t : State) : Prop := t ∈ l.successors s v byFold

theorem reach_known (reach : ReflTransGen (Leads l v byFold) State.root s) : s.Known := by
  induction reach with
  | refl => exact .inl rfl
  | tail _ step known => exact successors_known known step

theorem walk_spec (l : Layout) (v : Valuation) (byFold : UInt8) : ∃ order, l.walk v byFold = some order ∧ order.Nodup ∧
    ∀ s, s ∈ order ↔ ReflTransGen (Leads l v byFold) State.root s := by
  have agrees : Agrees ((List.replicate (4 * slots.length) false).set State.root.index true) [State.root] := by
    refine ⟨rfl, fun s mem => mem_singleton.mp mem ▸ .inl rfl, fun s known => ?_⟩
    have table : ∀ s ∈ allStates, ((List.replicate (4 * slots.length) false).set State.root.index true)[s.index]? =
        some (decide (s ∈ [State.root])) := by decide
    exact table s (mem_allStates.mpr known)
  have start := found_start (fun s => l.successors s v byFold) State.root
  obtain ⟨order, ran⟩ := search_ends start (fun s reach => mem_allStates.mpr (reach_known reach))
    (show allStates.length < 4 * slots.length + 1 + 0 by decide)
  obtain ⟨once, reached⟩ := search_reaches start ran
  exact ⟨order, (walkLoop_eq agrees).trans ran, once, reached⟩

end
section
variable {l : Layout} {v : Valuation} {byFold : UInt8} {s t : State}

theorem leads_mono (next : Leads l v 0 s t) : Leads l v byFold s t := by
  rcases mem_successors.mp next with ⟨mem, slot⟩ | stays
  · refine mem_successors.mpr (.inl ⟨?_, slot⟩)
    rcases mem_append.mp mem with opened | closed
    · obtain ⟨sec, listed, made⟩ := mem_filterMap.mp opened
      refine mem_append_left _ (mem_filterMap.mpr ⟨sec, listed, ?_⟩)
      split at made
      case isTrue holds =>
        rw [if_pos, made]
        simp only [bne_self_eq_false, Bool.false_and, Bool.or_false, Bool.and_eq_true] at holds
        simp only [Bool.and_eq_true, Bool.or_eq_true]
        exact ⟨by simpa using holds.1, .inl holds.2⟩
      case isFalse => cases made
    · exact mem_append_right _ closed
  · exact mem_successors.mpr (.inr stays)

/-- The section is laid out and enabled, and no state of the walk places a control that opens it. -/
def SectionFolds (l : Layout) (v : Valuation) (plain : List State) (name : String) : Prop :=
  l.enabled ⟨"toggle_section", some name⟩ v = true ∧
    ∀ s ∈ plain, ∀ c ∈ l.controls, carries c ⟨"toggle_section", some name⟩ = true → l.placed c s v = false

theorem enabled_section {sec : UInt8 × String} (listed : sec ∈ sections) :
    l.enabled ⟨"toggle_section", some sec.2⟩ v = (l.laid &&& sec.1 != 0 && (sec.2 != "chapters" || v.chapters)) := by
  simp only [sections, mem_cons, not_mem_nil, or_false] at listed
  rcases listed with rfl | rfl
  · simp [Layout.enabled, sections]
  · simp [Layout.enabled, sections]

theorem opener_unplaced {plain : List State} {name : String}
    (none_ : ∀ s ∈ plain, ∀ c ∈ l.controls, carries c ⟨"toggle_section", some name⟩ = true → l.placed c s v = false) :
    plain.any (fun state => l.opener state v name) = false := by
  rw [any_eq_false]
  intro s mem opens
  obtain ⟨c, among, both⟩ := any_eq_true.mp opens
  simp only [Bool.and_eq_true] at both
  have unplaced := none_ s mem c among (by simp [carries, both.1.1, both.1.2])
  rw [both.2] at unplaced
  cases unplaced

theorem bits_of_mem {p : UInt8 × String → Bool} {sec : UInt8 × String} (mem : sec ∈ sections.filter p) :
    (sections.filter p).foldl (fun bits s => bits ||| s.1) 0 &&& sec.1 ≠ 0 := by
  obtain ⟨listed, chosen⟩ := mem_filter.mp mem
  simp only [sections, mem_cons, not_mem_nil, or_false] at listed
  rcases listed with rfl | rfl
  · cases other : p (2, "info") with
    | true =>
      simp [sections, chosen, other]
      decide
    | false => simp [sections, chosen, other]
  · cases other : p (1, "chapters") with
    | true =>
      simp [sections, chosen, other]
      decide
    | false => simp [sections, chosen, other]

theorem exploreWithFolds_spec (l : Layout) (v : Valuation) : ∃ plain folded, l.explore v = some plain ∧
    l.exploreWithFolds v = some folded ∧ plain ⊆ folded ∧
    (l.moreIsPlaced v = true → ∀ sec ∈ sections, SectionFolds l v plain sec.2 → ∃ s ∈ folded, s.openSections &&& sec.1 ≠ 0) := by
  obtain ⟨plain, ran, -, reached⟩ := walk_spec l v 0
  have explored : l.explore v = some plain := ran
  unfold Layout.exploreWithFolds
  rw [explored, Option.bind_some]
  generalize chosen : (fun s : UInt8 × String =>
    l.laid &&& s.1 != 0 && (s.2 != "chapters" || v.chapters) && !plain.any (fun state => l.opener state v s.2)) = p
  have folds {sec : UInt8 × String} (listed : sec ∈ sections) (section_ : SectionFolds l v plain sec.2) : sec ∈ sections.filter p := by
    refine mem_filter.mpr ⟨listed, ?_⟩
    have enabled_ := section_.1
    rw [enabled_section listed] at enabled_
    rw [← chosen]
    simp only [enabled_, opener_unplaced section_.2, Bool.not_false, Bool.and_self]
  by_cases none_ : (sections.filter p).foldl (fun bits s => bits ||| s.1) 0 = 0
  · refine ⟨plain, plain, rfl, by simp [none_], fun s mem => mem, fun _ sec listed section_ => ?_⟩
    have bit := bits_of_mem (folds listed section_)
    rw [none_] at bit
    exact absurd (by simp) bit
  · obtain ⟨folded, ran_, -, reached_⟩ := walk_spec l v ((sections.filter p).foldl (fun bits s => bits ||| s.1) 0)
    refine ⟨plain, folded, rfl, by simp only [beq_iff_eq, none_, if_false, ran_], fun s mem => ?_, fun more sec listed section_ => ?_⟩
    · exact (reached_ s).mpr (ReflTransGen.mono (fun _ _ next => leads_mono next) _ _ ((reached s).mp mem))
    · have bit := bits_of_mem (folds listed section_)
      have enabled_ := section_.1
      rw [enabled_section listed] at enabled_
      have root_ : State.root.openSections &&& sec.1 = 0 := by
        simp [State.root]
      refine ⟨⟨if l.modal then sec.1 else State.root.openSections ||| sec.1, .discs⟩, (reached_ _).mpr (.single ?_), ?_⟩
      · refine mem_successors.mpr (.inl ⟨mem_append_left _ (mem_filterMap.mpr ⟨sec, listed, ?_⟩), .inr rfl⟩)
        rw [if_pos, root_]
        · rfl
        · simp only [enabled_, Bool.true_and, Bool.or_eq_true, Bool.and_eq_true, bne_iff_ne]
          exact .inr ⟨⟨none_, more⟩, bit⟩
      · have own : ∀ sec ∈ sections, sec.1 &&& sec.1 ≠ 0 ∧ (State.root.openSections ||| sec.1) &&& sec.1 ≠ 0 := by decide
        split
        · exact (own sec listed).1
        · exact (own sec listed).2

/-- A command that is enabled and that no state of the walk places under the valuation. -/
def Unplaced (l : Layout) (v : Valuation) (fold : Fold) : Prop :=
  l.enabled fold v = true ∧ ∃ plain, l.explore v = some plain ∧
    ∀ s ∈ plain, ∀ c ∈ l.controls, carries c fold = true → l.placed c s v = false

variable {folded : List Bool}

theorem accumulateFolds_length (l : Layout) (v : Valuation) (reachable : List State) (size : folded.length = foldable.length) :
    (l.accumulateFolds v reachable folded).length = foldable.length := by
  unfold Layout.accumulateFolds
  rw [length_map, length_zip, size, Nat.min_self]

theorem accumulateFolds_flag {reachable : List State} (size : folded.length = foldable.length) {i : Nat} {fold : Fold}
    (at_ : foldable[i]? = some fold) (explored : l.explore v = some reachable)
    (due : folded[i]? = some true ∨ Unplaced l v fold) : (l.accumulateFolds v reachable folded)[i]? = some true := by
  obtain ⟨within, -⟩ := List.getElem?_eq_some_iff.mp at_
  obtain ⟨b, flag⟩ : ∃ b, folded[i]? = some b := ⟨_, List.getElem?_eq_getElem (size ▸ within)⟩
  have both : (foldable.zip folded)[i]? = some (fold, b) := List.getElem?_zip_eq_some.mpr ⟨at_, flag⟩
  unfold Layout.accumulateFolds
  rw [List.getElem?_map, both, Option.map_some, Option.some.injEq]
  rcases due with set_ | ⟨enabled_, plain, eq, none_⟩
  · cases flag.symm.trans set_
    rfl
  · cases explored.symm.trans eq
    have unplaced : (reachable.any fun s => l.controls.any fun c => carries c fold && l.placed c s v) = false := by
      simp only [any_eq_false, any_eq_true, Bool.and_eq_true, not_exists, not_and]
      exact fun s mem c among carried => Bool.eq_false_iff.mp (none_ s mem c among carried)
    simp only [unplaced, enabled_, Bool.not_false, Bool.and_self, Bool.or_true]

theorem foldsLoop (l : Layout) (vs : List Valuation) (size : folded.length = foldable.length) : ∃ flags : List Bool,
    vs.foldlM (fun folded v => (l.explore v).map fun reachable => l.accumulateFolds v reachable folded) folded = some flags ∧
      ∀ (i : Nat) (fold : Fold), foldable[i]? = some fold → folded[i]? = some true ∨ (∃ v ∈ vs, Unplaced l v fold) → flags[i]? = some true := by
  induction vs generalizing folded with
  | nil => exact ⟨folded, rfl, fun i fold _ due => due.resolve_right fun some_ => nomatch some_.choose_spec.1⟩
  | cons v vs ih =>
    obtain ⟨plain, ran, -⟩ := walk_spec l v 0
    have explored : l.explore v = some plain := ran
    obtain ⟨flags, rest, kept⟩ := ih (accumulateFolds_length l v plain size)
    refine ⟨flags, by rw [foldlM_cons, explored]; exact rest, fun i fold at_ due => kept i fold at_ ?_⟩
    rcases due with set_ | ⟨w, among, unplaced⟩
    · exact .inl (accumulateFolds_flag size at_ explored (.inl set_))
    · rcases mem_cons.mp among with rfl | later
      · exact .inl (accumulateFolds_flag size at_ explored (.inr unplaced))
      · exact .inr ⟨w, later, unplaced⟩

theorem folds_spec (l : Layout) : ∃ folds, l.folds = some folds ∧
    ∀ fold ∈ foldable, ∀ v ∈ l.valuations, Unplaced l v fold → fold ∈ folds := by
  obtain ⟨flags, ran, set_⟩ := foldsLoop l l.valuations (length_replicate (n := foldable.length) (a := false))
  refine ⟨foldList flags, by rw [Layout.folds, ran]; rfl, fun fold listed v among unplaced => ?_⟩
  obtain ⟨i, at_⟩ := List.getElem?_of_mem listed
  have flag := set_ i fold at_ (.inr ⟨v, among, unplaced⟩)
  refine mem_filterMap.mpr ⟨(fold, true), ?_, rfl⟩
  exact List.mem_of_getElem? (List.getElem?_zip_eq_some.mpr ⟨at_, flag⟩)

end
section

/-- The plain walk lists the reachable states, the compiler's walk holds it, every enabled command is placed in one of its states
or is folded into More, and every section that folds is opened from More's root where that is always placed. -/
theorem no_command_is_lost (layout : Object) {v : Valuation} (named : v ∈ (Layout.read layout).valuations) :
    ∃ plain folded folds, (Layout.read layout).explore v = some plain ∧ (Layout.read layout).exploreWithFolds v = some folded ∧
      (Layout.read layout).folds = some folds ∧
      plain.Nodup ∧ (∀ s, s ∈ plain ↔ ReflTransGen (Leads (Layout.read layout) v 0) State.root s) ∧
      plain ⊆ folded ∧
      (∀ fold ∈ foldable, (Layout.read layout).enabled fold v = true →
        (∃ s ∈ plain, ∃ c ∈ (Layout.read layout).controls, carries c fold = true ∧ (Layout.read layout).placed c s v = true) ∨ fold ∈ folds) ∧
      ((∀ w ∈ (Layout.read layout).valuations, (Layout.read layout).moreIsPlaced w = true) →
        ∀ sec ∈ sections, SectionFolds (Layout.read layout) v plain sec.2 → ∃ s ∈ folded, s.openSections &&& sec.1 ≠ 0) := by
  generalize Layout.read layout = l at *
  obtain ⟨plain, folded, explored, compiled, within, opened⟩ := exploreWithFolds_spec l v
  obtain ⟨order, ran, once, reached⟩ := walk_spec l v 0
  cases explored.symm.trans ran
  obtain ⟨folds, made, lists⟩ := folds_spec l
  refine ⟨plain, folded, folds, explored, compiled, made, once, reached, within, fun fold listed enabled_ => ?_, fun more => opened (more v named)⟩
  by_contra lost
  obtain ⟨unplaced, unfolded⟩ := not_or.mp lost
  refine unfolded (lists fold listed v named ⟨enabled_, plain, explored, fun s member c among carried => ?_⟩)
  rw [Bool.eq_false_iff]
  exact fun placed_ => unplaced ⟨s, member, c, among, carried, placed_⟩

/-- A row with More, and a band for the chapters that no control opens. -/
def moreOnly : Object :=
  .mk "layout" [("block", .list
    [.object (.mk "band" [("id", .text "row"), ("cells", .list [.object (.mk "item" [("command", .name "open_more")])])]),
      .object (.mk "band" [("id", .text "strip"), ("when", .cond ⟨[⟨false, "panel.chapters"⟩]⟩)])])]

theorem no_command_is_lost_more_only : ∃ plain folded, (Layout.read moreOnly).explore ⟨true, true, true⟩ = some plain ∧
    (Layout.read moreOnly).exploreWithFolds ⟨true, true, true⟩ = some folded ∧ plain ⊆ folded ∧ plain.Nodup := by
  obtain ⟨plain, folded, _, explored, compiled, -, once, -, within, -⟩ :=
    no_command_is_lost moreOnly (show (⟨true, true, true⟩ : Valuation) ∈ (Layout.read moreOnly).valuations by decide +kernel)
  exact ⟨plain, folded, explored, compiled, within, once⟩

example : (Layout.read moreOnly).folds = some (foldable.filter fun fold => fold.section_ != some "info") ∧
    ((Layout.read moreOnly).exploreWithFolds ⟨true, true, true⟩).map List.length = some 4 := by decide +kernel

end

end PlxNative.HudFormat
