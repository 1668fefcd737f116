import PlxNative.Hud.Listed
import PlxNative.Hud.Memory

/-! The disk behind the store. The effects of an event are run in the order they were
emitted; what a request found or came to is the runner's to answer, at any later time, again,
or never. -/
namespace PlxNative.Hud
open Transducer (Event event history run)

abbrev Disk : Type := Loc → Option Bytes

/-- What the runner has to say of a request it has run: how a write ended, or what stood in a
file when it was read. -/
inductive Due where
  | written (outcome : WriteOutcome)
  | read (at_ : Loc) (content : Option Bytes)
  | other
deriving DecidableEq

/-- A request that was run: its place in the count of tags, and the tag it was made under. -/
structure Asked where
  number : Nat
  tag : Tag
  due : Due

/-- The store with the disk it is run on. `found` is what each index was last read as, and
`wrote` the files other than an index that were written. -/
structure Home where
  store : HudStore
  disk : Disk
  asked : List Asked
  found : PathBuf → Option Access
  wrote : List Loc

/-- An event, the request it is the answer to if it is one, and whether a write it leads to
lands. -/
structure Move where
  event : HudEvent
  number : Nat
  lands : Bool

/-- Whether the outcome of a read is what stood in the file. -/
def Fits (content : Option Bytes) : Except ReadError Bytes → Prop
  | .ok bytes => content = some bytes
  | .error .missing => content = none
  | .error .tooLarge | .error .failed => True

instance (content : Option Bytes) (result : Except ReadError Bytes) : Decidable (Fits content result) :=
  match result with
  | .ok bytes => inferInstanceAs (Decidable (content = some bytes))
  | .error .missing => inferInstanceAs (Decidable (content = none))
  | .error .tooLarge | .error .failed => .isTrue trivial

/-- An index that is read is read as it stood; what else is read is not the store's own. -/
def Due.Tells (result : Except ReadError Bytes) : Due → Prop
  | .read at_ content => at_.rel = indexFile → Fits content result
  | _ => False

instance (result : Except ReadError Bytes) (due : Due) : Decidable (due.Tells result) :=
  match due with
  | .read at_ content => inferInstanceAs (Decidable (at_.rel = indexFile → Fits content result))
  | .written _ | .other => .isFalse not_false

/-- Every `installed.json` that can be read names only packs that are there and are what
their names say. -/
def Intact [World] (disk : Disk) : Prop :=
  ∀ root bytes, disk ⟨root, indexFile⟩ = some bytes → ∀ sha, Index.Names (parseIndex bytes).index sha →
    ∃ pack, disk ⟨root, packRel sha⟩ = some pack ∧ Sha.of pack = sha

/-- Whether the `installed.json` of a directory lists a package. -/
def Lists [World] (disk : Disk) (root : PathBuf) (sha : Sha) : Prop :=
  ∃ bytes, disk ⟨root, indexFile⟩ = some bytes ∧ Listed bytes sha

def HudEffect.touched : HudEffect → Option Loc
  | .writeFile _ at_ _ => some at_
  | .delete at_ => some at_
  | _ => none

def execute (lands : Bool) (disk : Disk) : HudEffect → Disk
  | .writeFile _ at_ bytes => if lands then Function.update disk at_ (some bytes) else disk
  | .delete at_ => Function.update disk at_ none
  | _ => disk

/-- The disk once some effects have been run. -/
def executed (lands : Bool) (disk : Disk) (fx : List HudEffect) : Disk := fx.foldl (execute lands) disk

/-- What is to be answered to an effect that is run on a disk. -/
def due (lands : Bool) (disk : Disk) : HudEffect → Option (Tag × Due)
  | .writeFile tag _ _ => some (tag, .written (if lands then .done else .refused))
  | .readFile tag at_ _ => some (tag, .read at_ (disk at_))
  | .scanDir tag _ | .fetchRegistry tag _ _ | .fetch tag _ _ | .validate tag _ _ => some (tag, .other)
  | .catalog _ | .delete _ | .selection _ | .notice _ => none

/-- The requests of one event, as they were run. -/
def askedOf (number : Nat) (lands : Bool) : Disk → List HudEffect → List Asked
  | _, [] => []
  | disk, e :: rest =>
    (due lands disk e).toList.map (fun asked => ⟨number, asked.1, asked.2⟩) ++
      askedOf number lands (execute lands disk e) rest

/-- The pack files an effect writes, where it lands. -/
def packWritten (lands : Bool) : HudEffect → Option Loc
  | .writeFile _ at_ _ => if lands && at_.rel != indexFile then some at_ else none
  | _ => none

def HudStore.pendingIndex (s : HudStore) : Option Index :=
  match s.op with
  | .installing ⟨_, .writing _ _ _ (.index index _)⟩ => some index
  | .removing ⟨_, _, _, some r⟩ => some r.index
  | _ => none

namespace Home
variable [World]

def start (disk : Disk) : Home := ⟨.new, disk, [], fun _ => none, []⟩

/-- What the store makes of the index it waits for, where the event is the answer. -/
def foundNow (h : Home) : HudEvent → PathBuf → Option Access
  | .read tag result => match h.store.readingIndex with
    | some d => if h.store.op.awaits = some ⟨tag, .read⟩ then Function.update h.found (h.store.rootOf d) (some (HudStore.indexRead result).access)
        else h.found
    | none => h.found
  | _ => h.found

def step (h : Home) (m : Move) : Home × List HudEffect :=
  let told := h.store.turn m.event
  (⟨told.1, executed m.lands h.disk told.2.2, h.asked ++ askedOf told.1.tags m.lands h.disk told.2.2, h.foundNow m.event,
    h.wrote ++ told.2.2.filterMap (packWritten m.lands)⟩, told.2.2)

/-- An answer is one the runner has to give. -/
def Owes (h : Home) (m : Move) (tag : Tag) (tells : Due → Prop) : Prop :=
  ∃ asked ∈ h.asked, asked.number = m.number ∧ asked.tag = tag ∧ tells asked.due

instance (h : Home) (m : Move) (tag : Tag) (tells : Due → Prop) [DecidablePred tells] : Decidable (h.Owes m tag tells) :=
  inferInstanceAs (Decidable (∃ asked ∈ h.asked, asked.number = m.number ∧ asked.tag = tag ∧ tells asked.due))

/-- What a runner may tell the store: it refreshes with directories that are distinct, and
answers writes and reads as they went. -/
def Hears (h : Home) (m : Move) : Prop :=
  match m.event with
  | .refresh setup _ => (setup.candidates.map Candidate.dir).Nodup
  | .written tag outcome => h.Owes m tag (· = .written outcome)
  | .read tag result => h.Owes m tag (Due.Tells result)
  | _ => True

instance (h : Home) (m : Move) : Decidable (h.Hears m) :=
  match m with
  | ⟨.refresh setup _, _, _⟩ => inferInstanceAs (Decidable (setup.candidates.map Candidate.dir).Nodup)
  | ⟨.written tag outcome, n, lands⟩ =>
    inferInstanceAs (Decidable (h.Owes ⟨.written tag outcome, n, lands⟩ tag (· = .written outcome)))
  | ⟨.read tag result, n, lands⟩ => inferInstanceAs (Decidable (h.Owes ⟨.read tag result, n, lands⟩ tag (Due.Tells result)))
  | ⟨.catalog _, _, _⟩ | ⟨.fetchRegistry _ _ _, _, _⟩ | ⟨.cancelRegistry _, _, _⟩ | ⟨.scanned _ _, _, _⟩
  | ⟨.validated _ _ _, _, _⟩ | ⟨.install _ _ _, _, _⟩ | ⟨.fetch _, _, _⟩ | ⟨.fetched _ _, _, _⟩ | ⟨.installOffer _ _, _, _⟩
  | ⟨.declineOffer _, _, _⟩ | ⟨.installDrop _ _, _, _⟩ | ⟨.selected _, _, _⟩ | ⟨.removed _, _, _⟩ => .isTrue trivial

/-- An answer that comes before its tag is used again. -/
def Prompt (h : Home) (m : Move) : Prop := m.event.answers.isSome = true → h.store.tags < m.number + 2 ^ 32

instance (h : Home) (m : Move) : Decidable (h.Prompt m) :=
  inferInstanceAs (Decidable (m.event.answers.isSome = true → h.store.tags < m.number + 2 ^ 32))

/-- The index on its way to the disk can be read again. -/
def Legible (h : Home) : Prop := ∀ index, h.store.pendingIndex = some index → ReadsBack index

instance (h : Home) : Decidable h.Legible :=
  match held : h.store.pendingIndex with
  | none => .isTrue (fun _ some_ => nomatch held.symm.trans some_)
  | some index =>
    if reads : World.fromSlice (indexBytes index) = some (indexValue index) then
      .isTrue (fun _ same => Option.some.inj (held.symm.trans same) ▸ reads)
    else .isFalse (fun all => reads (all index held))

structure Fair (e : Event Home Move (List HudEffect)) : Prop where
  hears : e.before.Hears e.input
  legible : e.after.Legible

instance (e : Event Home Move (List HudEffect)) : Decidable (Fair e) :=
  decidable_of_iff (e.before.Hears e.input ∧ e.after.Legible) ⟨fun h => ⟨h.1, h.2⟩, fun h => ⟨h.1, h.2⟩⟩

end Home
end PlxNative.Hud
