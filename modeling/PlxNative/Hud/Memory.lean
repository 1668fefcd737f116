import PlxNative.Hud.Installs

/-! What an event makes of the store's picture of its directories: nothing, a directory read
again, or a write that is known to have landed or not. -/
namespace PlxNative.Hud
open List

def HudEffect.still : HudEffect → Bool
  | .catalog _ | .selection _ | .notice _ => true
  | _ => false

def Job.later : Job → Bool
  | .index _ | .plan => false
  | .pack _ _ _ | .scan _ | .drop _ _ => true

/-- A listing reads the indexes, plans, and then has no more to reclaim. -/
def Listing.Phased (l : Listing) : Prop :=
  ∃ f, l.flight = some f ∧
    ((∃ (d : Nat) (ds : List Nat) (rest : List Job), f.job = .index d ∧ f.stage = .io ∧
        l.todo = ds.map .index ++ .plan :: rest ∧ ∀ j ∈ rest, j.later = true) ∨
      f.job.later = true ∧ (∀ j ∈ l.todo, j.later = true) ∧ l.stray = [])

def Op.Phased : Op → Prop
  | .listing l => l.Phased
  | _ => True

/-- A candidate whose index the work in hand has still to read. -/
def Op.Unread (d : Nat) : Op → Prop
  | .listing l => .index d ∈ l.todo ∨ ∃ f, l.flight = some f ∧ f.job = .index d
  | _ => False

def Op.Surveyed (op : Op) : Prop := ∀ d, ¬ op.Unread d

namespace HudStore

/-- The packs the work in hand may leave behind, or takes over from work it displaced. -/
def strays (s : HudStore) : List (PathBuf × Sha) :=
  match s.op with
  | .listing l => l.stray
  | _ => s.displaced.1

/-- The store once it knows what came of its write. -/
def caughtUp (s : HudStore) (outcome : WriteOutcome) : HudStore :=
  match s.op, outcome with
  | .installing ⟨_, .writing _ _ d (.index index _)⟩, .done => s.withIndex d index
  | .removing ⟨_, _, _, some r⟩, .done => s.withIndex r.dir r.index
  | _, _ => s

/-- The packs that what came of a write leaves to be told or taken away. -/
def unsure (s : HudStore) (outcome : WriteOutcome) : List (Nat × Sha) :=
  match s.op with
  | .installing ⟨_, .writing offer _ d .pack⟩ => if outcome = .done then [(d, offer.sha)] else []
  | .installing ⟨_, .writing offer _ d (.index _ replaced)⟩ => (d, offer.sha) :: replaced.toList.map (fun old => (d, old))
  | .removing ⟨_, _, _, some r⟩ => r.gone.map (fun sha => (r.dir, sha))
  | _ => []

def WritesPack (s : HudStore) : Prop := ∃ offer metadata d, s.op.step? = some (.writing offer metadata d .pack)

/-- A pack is named, is still in the work's hand, or goes. -/
def Settles (stepped : Stepped) (d : Nat) (sha : Sha) : Prop :=
  Index.Names (stepped.1.dir d).index sha ∨ ((stepped.1.rootOf d, sha) ∈ stepped.1.strays ∧ ¬ stepped.1.WritesPack) ∨
    .delete (stepped.1.loc d (packRel sha)) ∈ stepped.2

def Undeleted (fx : List HudEffect) : Prop := ∀ at_, .delete at_ ∉ fx

/-- The packs a displaced piece of work may have left are named or go. -/
def Reclaims (stray : List (PathBuf × Sha)) (stepped : Stepped) : Prop :=
  ∀ root sha d, (root, sha) ∈ stray → stepped.1.setup.candidates.findIdx? (fun c => c.dir = root) = some d →
    (stepped.1.dir d).access = .writable →
    Index.Names (stepped.1.dir d).index sha ∨ .delete (stepped.1.loc d (packRel sha)) ∈ stepped.2

variable [World]

/-- What became of the store's picture of its directories. -/
inductive Learns (s : HudStore) : HudEvent → Stepped → Prop
  | kept {ev : HudEvent} {t : HudStore} {fx : List HudEffect} (op : t.op = s.op) (tags : t.tags = s.tags)
      (dirs : t.dirs = s.dirs) (setup : t.setup = s.setup) (still : ∀ e ∈ fx, e.still = true) : Learns s ev (t, fx)
  | moved {ev : HudEvent} {t : HudStore} {fx : List HudEffect} (free : s.pendingWrite = none) (before : s.op.Surveyed)
      (after : t.op.Surveyed) (dirs : t.dirs = s.dirs) (setup : t.setup = s.setup) (undeleted : Undeleted fx) :
      Learns s ev (t, fx)
  | refreshed {setup : Setup} {selected : String} {t : HudStore} {fx : List HudEffect} (here : t.setup = setup)
      (unread : ∀ d, t.op.Unread d ↔ d < setup.candidates.length)
      (carried : setup.candidates ≠ [] → t.strays = s.displaced.1) (resting : t.pendingWrite = none)
      (undeleted : Undeleted fx) : Learns s (.refresh setup selected) (t, fx)
  | read {tag : Tag} {result : Except ReadError Bytes} {t : HudStore} {fx : List HudEffect} (d : Nat)
      (reading : s.readingIndex = some d) (awaited : s.op.awaits = some ⟨tag, .read⟩)
      (dirs : t.dirs = (s.withDir d (indexRead result)).dirs) (setup : t.setup = s.setup)
      (fewer : ∀ e, s.op.Unread e → e = d ∨ t.op.Unread e) (resting : t.pendingWrite = none)
      (on : Undeleted fx ∧ t.strays = s.strays ∧ (∀ e, t.op.Unread e → s.op.Unread e) ∨
        t.op.Surveyed ∧ Reclaims s.strays (t, fx)) :
      Learns s (.read tag result) (t, fx)
  | wrote {tag : Tag} {outcome : WriteOutcome} {t : HudStore} {fx : List HudEffect} (free : s.pendingWrite ≠ none)
      (awaited : s.op.awaits = some ⟨tag, .write⟩) (after : t.op.Surveyed)
      (dirs : t.dirs = (s.caughtUp outcome).dirs) (setup : t.setup = s.setup)
      (laid : ∀ offer metadata d index replaced, t.op.step? = some (.writing offer metadata d (.index index replaced)) →
        outcome = .done ∧ s.op.step? = some (.writing offer metadata d .pack) ∧ Undeleted fx)
      (settles : ∀ d sha, (d, sha) ∈ s.unsure outcome → Settles (t, fx) d sha) :
      Learns s (.written tag outcome) (t, fx)

section
variable {s : HudStore}

omit [World] in
theorem undeleted_nil : Undeleted [] := fun _ mem => nomatch mem

omit [World] in
theorem undeleted_notice (n : Notice) : Undeleted [.notice n] := fun _ mem => nomatch mem_singleton.mp mem

omit [World] in
theorem Undeleted.append {before after : List HudEffect} (first : Undeleted before) (then_ : Undeleted after) :
    Undeleted (before ++ after) := by
  intro at_ mem
  rcases mem_append.mp mem with old | new_
  · exact first at_ old
  · exact then_ at_ new_

omit [World] in
theorem surveyed_idle : Op.Surveyed .idle := fun _ unread => unread

omit [World] in
theorem surveyed_installing (i : Installing) : Op.Surveyed (.installing i) := fun _ unread => unread

omit [World] in
theorem surveyed_removing (r : Removing) : Op.Surveyed (.removing r) := fun _ unread => unread

omit [World] in
theorem later_ne_index {j : Job} (later : j.later = true) (d : Nat) : j ≠ .index d := by
  rintro rfl
  cases later

omit [World] in
theorem surveyed_later {l : Listing} {f : Flight} (flying : l.flight = some f) (job : f.job.later = true)
    (todo : ∀ j ∈ l.todo, j.later = true) : Op.Surveyed (.listing l) := by
  rintro d (waits | ⟨g, held, own⟩)
  · exact later_ne_index (todo _ waits) d rfl
  · cases flying.symm.trans held
    exact later_ne_index job d own

theorem strays_nil (phased : s.op.Phased) (surveyed : s.op.Surveyed) (free : s.pendingWrite = none) : s.strays = [] := by
  obtain ⟨setup, dirs, packs, drops, selected, op, tags, catalog⟩ := s
  cases op with
  | idle => rfl
  | listing l =>
    obtain ⟨f, flying, ⟨d, ds, rest, own, -⟩ | ⟨-, -, stray⟩⟩ := phased
    · exact absurd (.inr ⟨f, flying, own⟩) (surveyed d)
    · exact stray
  | installing i =>
    obtain ⟨tag, step⟩ := i
    cases step with
    | writing offer metadata d what => cases what <;> cases free
    | _ => rfl
  | removing r =>
    obtain ⟨id, ds, incomplete, flight⟩ := r
    cases flight with
    | none => rfl
    | some r => cases free

end

section
variable {s : HudStore}

omit [World] in
theorem reclaim_nowhere (stray : List (PathBuf × Sha)) (empty : s.setup.candidates = []) :
    s.reclaim stray = [] := by
  refine flatMap_eq_nil_iff.mpr (fun left _ => ?_)
  unfold discardStray
  rw [empty]
  rfl

omit [World] in
theorem request_undeleted (s : HudStore) (job : Job) : Undeleted (s.request job) := by
  intro at_ mem
  cases job <;> simp [request, readFile] at mem

omit [World] in
theorem advance_later (s : HudStore) {todo : List Job} (later : ∀ j ∈ todo, j.later = true) :
    (s.advance [] todo).1.op.Surveyed ∧ (s.advance [] todo).1.op.Phased ∧ Undeleted (s.advance [] todo).2 := by
  cases todo with
  | nil => exact ⟨surveyed_idle, trivial, undeleted_nil⟩
  | cons job rest =>
    have own := later job mem_cons_self
    have others : ∀ j ∈ rest, j.later = true := fun j mem => later j (mem_cons_of_mem _ mem)
    have issued : s.advance [] (job :: rest) = s.issue [] job rest := by
      cases job <;> first | rfl | cases own
    rw [issued]
    refine ⟨surveyed_later rfl own others, ⟨_, rfl, .inr ⟨own, others, rfl⟩⟩, request_undeleted _ job⟩

omit [World] in
theorem advance_plan (s : HudStore) (stray : List (PathBuf × Sha)) {rest : List Job}
    (later : ∀ j ∈ rest, j.later = true) :
    (s.advance stray (.plan :: rest)).1.op.Surveyed ∧ (s.advance stray (.plan :: rest)).1.op.Phased ∧
      ∃ fx, (s.advance stray (.plan :: rest)).2 = s.reclaim stray ++ fx ∧ Undeleted fx := by
  simp only [advance]
  split
  · obtain ⟨surveyed, phased, undeleted⟩ := advance_later s.drawn later
    exact ⟨surveyed, phased, _, rfl, undeleted⟩
  · rename_i first more _
    have all : ∀ j ∈ more.map packJob ++ rest, j.later = true := by
      intro j mem
      rcases mem_append.mp mem with planned | old
      · obtain ⟨p, -, rfl⟩ := mem_map.mp planned
        rfl
      · exact later j old
    exact ⟨surveyed_later rfl rfl all, ⟨_, rfl, .inr ⟨rfl, all, rfl⟩⟩, _, rfl, request_undeleted s.drawn.drawn (packJob first)⟩

omit [World] in
theorem reclaim_reclaims (stray : List (PathBuf × Sha)) {t : HudStore} {fx : List HudEffect} (dirs : t.dirs = s.dirs)
    (setup : t.setup = s.setup) : Reclaims stray (t, s.reclaim stray ++ fx) := by
  intro root sha d mem found access
  have loc : t.loc d (packRel sha) = s.loc d (packRel sha) := by
    unfold HudStore.loc HudStore.rootOf
    rw [setup]
  simp only [setup, dir_same dirs] at found access
  rw [loc, dir_same dirs]
  by_cases named : Index.Names (s.dir d).index sha
  · exact .inl named
  · refine .inr (mem_append_left _ (mem_flatMap.mpr ⟨_, mem, ?_⟩))
    unfold discardStray
    rw [found]
    simp only [access]
    unfold discard referenced
    rw [if_neg (fun held => named (Index.names_iff.mp held))]
    exact mem_singleton_self _

theorem advance_resting (s : HudStore) (stray : List (PathBuf × Sha)) (todo : List Job) :
    (s.advance stray todo).1.pendingWrite = none := by
  induction todo generalizing s stray with
  | nil => rfl
  | cons job rest ih =>
    cases job with
    | plan =>
      simp only [advance]
      split
      · exact ih s.drawn []
      · rfl
    | _ => rfl

omit [World] in
theorem advance_surveys (s : HudStore) (stray : List (PathBuf × Sha)) (ds : List Nat) {rest : List Job}
    (later : ∀ j ∈ rest, j.later = true) :
    (s.advance stray (ds.map .index ++ .plan :: rest)).1.op.Phased ∧
      (∀ e ∈ ds, (s.advance stray (ds.map .index ++ .plan :: rest)).1.op.Unread e) ∧
      (Undeleted (s.advance stray (ds.map .index ++ .plan :: rest)).2 ∧
          (s.advance stray (ds.map .index ++ .plan :: rest)).1.strays = stray ∧
          (∀ e, (s.advance stray (ds.map .index ++ .plan :: rest)).1.op.Unread e → e ∈ ds) ∨
        ds = [] ∧ (s.advance stray (ds.map .index ++ .plan :: rest)).1.op.Surveyed ∧
          Reclaims stray (s.advance stray (ds.map .index ++ .plan :: rest))) := by
  cases ds with
  | nil =>
    obtain ⟨surveyed, phased, fx, whole, -⟩ := advance_plan s stray later
    obtain ⟨dirs, -, setup⟩ := advance_same s stray (.plan :: rest)
    refine ⟨phased, nofun, .inr ⟨rfl, surveyed, ?_⟩⟩
    have reclaims : Reclaims stray ((s.advance stray (.plan :: rest)).1, s.reclaim stray ++ fx) :=
      reclaim_reclaims stray dirs setup
    rw [← whole] at reclaims
    exact reclaims
  | cons d ds =>
    have unread : ∀ e, (s.advance stray ((d :: ds).map .index ++ .plan :: rest)).1.op.Unread e ↔ e ∈ d :: ds := by
      intro e
      have waiting : Job.index e ∈ ds.map Job.index ++ .plan :: rest ↔ e ∈ ds := by
        have behind : Job.index e ∉ rest := fun mem => later_ne_index (later _ mem) e rfl
        simp [behind]
      have flying : (∃ f, some (Flight.mk s.drawn.lastTag (.index d) .io) = some f ∧ f.job = .index e) ↔ e = d := by
        simp [eq_comm]
      rw [mem_cons, or_comm, ← waiting, ← flying]
      rfl
    refine ⟨⟨_, rfl, .inl ⟨d, ds, rest, rfl, rfl, rfl, later⟩⟩, fun e mem => (unread e).mpr mem, .inl ⟨?_, rfl, ?_⟩⟩
    · exact request_undeleted s.drawn (.index d)
    · exact fun e held => (unread e).mp held

section
variable {l : Listing} {f : Flight}

omit [World] in
theorem phased_behind (phased : l.Phased) (flying : l.flight = some f) (later : f.job.later = true) :
    Op.Surveyed (.listing l) ∧ (∀ j ∈ l.todo, j.later = true) ∧ l.stray = [] := by
  obtain ⟨g, flying', ⟨d, ds, rest, own, -⟩ | ⟨-, todo, stray⟩⟩ := phased
  all_goals cases flying.symm.trans flying'
  · rw [own] at later
    cases later
  · exact ⟨surveyed_later flying later todo, todo, stray⟩

omit [World] in
theorem phased_before (phased : l.Phased) {d : Nat} {tag : Tag} {stage : Stage}
    (flying : l.flight = some ⟨tag, .index d, stage⟩) :
    ∃ (ds : List Nat) (rest : List Job), l.todo = ds.map .index ++ .plan :: rest ∧ ∀ j ∈ rest, j.later = true := by
  obtain ⟨g, flying', ⟨e, ds, rest, own, -, todo, later⟩ | ⟨later, -⟩⟩ := phased
  all_goals cases flying.symm.trans flying'
  · exact ⟨ds, rest, todo, later⟩
  · cases later

section
variable (held : s.op = .listing l)
include held

theorem listing_free : s.pendingWrite = none := by
  unfold pendingWrite
  rw [held]

variable {ev : HudEvent}

theorem onward_learns (phased : l.Phased) (flying : l.flight = some f)
    (later : f.job.later = true) {t : HudStore} {more : List Job} (dirs : t.dirs = s.dirs)
    (setup : t.setup = s.setup) (new_ : ∀ j ∈ more, j.later = true) :
    Learns s ev (t.advance l.stray (more ++ l.todo)) ∧ (t.advance l.stray (more ++ l.todo)).1.op.Phased := by
  obtain ⟨surveyed, todo, stray⟩ := phased_behind phased flying later
  have all : ∀ j ∈ more ++ l.todo, j.later = true := by
    intro j mem
    rcases mem_append.mp mem with fresh | old
    · exact new_ j fresh
    · exact todo j old
  obtain ⟨after, next, undeleted⟩ := advance_later t all
  obtain ⟨dirs', -, setup'⟩ := advance_same t [] (more ++ l.todo)
  rw [stray]
  exact ⟨.moved (listing_free held) (by rw [held]; exact surveyed) after (dirs'.trans dirs) (setup'.trans setup) undeleted, next⟩

theorem inspect_learns (phased : l.Phased) (flying : l.flight = some f)
    (later : f.job.later = true) (sha : Sha) (bytes : Bytes) :
    Learns s ev (HudStore.inspect { s with op := .idle } { l with flight := none } f.job sha bytes) ∧
      (HudStore.inspect { s with op := .idle } { l with flight := none } f.job sha bytes).1.op.Phased := by
  obtain ⟨surveyed, todo, stray⟩ := phased_behind phased flying later
  refine ⟨.moved (listing_free held) (by rw [held]; exact surveyed) (surveyed_later rfl later todo) rfl rfl ?_,
    ⟨_, rfl, .inr ⟨later, todo, stray⟩⟩⟩
  exact fun at_ mem => nomatch mem_singleton.mp mem

theorem index_learns (phased : l.Phased) {tag : Tag} {d : Nat}
    (flying : l.flight = some ⟨tag, .index d, .io⟩) (result : Except ReadError Bytes) :
    Learns s (.read tag result) ((HudStore.withDir { s with op := .idle } d (indexRead result)).advance l.stray l.todo) ∧
      ((HudStore.withDir { s with op := .idle } d (indexRead result)).advance l.stray l.todo).1.op.Phased := by
  obtain ⟨ds, rest, todo, later⟩ := phased_before phased flying
  obtain ⟨dirs, -, setup⟩ := advance_same (HudStore.withDir { s with op := .idle } d (indexRead result)) l.stray l.todo
  rw [todo] at dirs setup ⊢
  obtain ⟨next, waits, on⟩ := advance_surveys (HudStore.withDir { s with op := .idle } d (indexRead result)) l.stray ds later
  have resting := advance_resting (HudStore.withDir { s with op := .idle } d (indexRead result)) l.stray
    (ds.map .index ++ .plan :: rest)
  have unread : ∀ e, s.op.Unread e ↔ e = d ∨ e ∈ ds := by
    intro e
    rw [held]
    show (Job.index e ∈ l.todo ∨ _) ↔ _
    have behind : Job.index e ∉ rest := fun mem => later_ne_index (later _ mem) e rfl
    rw [todo]
    simp [flying, behind, or_comm, eq_comm]
  have stray : s.strays = l.stray := by
    unfold strays
    rw [held]
  refine ⟨.read d ?_ ?_ dirs setup ?_ resting ?_, next⟩
  · obtain ⟨todo', flight, stray'⟩ := l
    cases flying
    unfold readingIndex
    rw [held]
  · rw [held]
    show l.flight.bind _ = _
    rw [flying]
    rfl
  · intro e open_
    exact ((unread e).mp open_).imp id (waits e)
  · rw [stray]
    rcases on with ⟨undeleted, carried, fewer⟩ | ⟨-, surveyed, reclaims⟩
    · exact .inl ⟨undeleted, carried, fun e open_ => (unread e).mpr (.inr (fewer e open_))⟩
    · exact .inr ⟨surveyed, reclaims⟩

theorem listingAnswer_learns (phased : l.Phased) {tag : Tag} {job : Job} {stage : Stage}
    (flying : l.flight = some ⟨tag, job, stage⟩) (tagged : listingTag ev = some tag) {stepped : Stepped}
    (answered : HudStore.listingAnswer { s with op := .idle } { l with flight := none } job stage ev = some stepped) :
    Learns s ev stepped ∧ stepped.1.op.Phased := by
  have onward : job.later = true → ∀ {t : HudStore} {more : List Job}, t.dirs = s.dirs → t.setup = s.setup →
      (∀ j ∈ more, j.later = true) → Learns s ev (t.advance l.stray (more ++ l.todo)) ∧
        (t.advance l.stray (more ++ l.todo)).1.op.Phased :=
    fun later _ _ dirs setup new_ => onward_learns held phased flying later dirs setup new_
  have straight : job.later = true → ∀ {t : HudStore}, t.dirs = s.dirs → t.setup = s.setup →
      Learns s ev (t.advance l.stray l.todo) ∧ (t.advance l.stray l.todo).1.op.Phased :=
    fun later t dirs setup => @onward later t [] dirs setup (fun j mem => nomatch mem)
  unfold listingAnswer at answered
  split at answered
  · cases answered
    cases tagged
    exact index_learns held phased flying _
  · cases answered
    refine onward rfl rfl rfl (fun j mem => ?_)
    obtain ⟨name, -, rfl⟩ := mem_map.mp mem
    rfl
  · rename_i sha d others given result
    cases answered
    have next : ∀ j ∈ nextCopy sha others, j.later = true := by
      intro j mem
      cases others with
      | nil => cases mem
      | cons e rest =>
        cases mem_singleton.mp mem
        rfl
    unfold packRead
    split
    · split
      · exact inspect_learns held phased flying rfl _ _
      · exact onward rfl rfl rfl next
    · exact onward rfl rfl rfl next
  · split at answered
    · cases answered
      refine straight rfl ?_ ?_
      all_goals unfold admitted; split <;> rfl
    · cases answered
  · cases answered
    unfold dropRead
    split
    · exact inspect_learns held phased flying rfl _ _
    all_goals exact straight rfl rfl rfl
  · split at answered
    · cases answered
      exact straight rfl rfl rfl
    · cases answered
  · cases answered

end

end

end

section
variable {s : HudStore}

omit [World] in
/-- Work that reads no index and takes nothing away. -/
def Plain (stepped : Stepped) : Prop := stepped.1.op.Surveyed ∧ stepped.1.op.Phased ∧ Undeleted stepped.2

omit [World] in
theorem plain_ended (s : HudStore) (n : Notice) : Plain (s.ended n) := ⟨surveyed_idle, trivial, undeleted_notice n⟩

omit [World] in
theorem plain_installing {t : HudStore} {i : Installing} (held : t.op = .installing i) {fx : List HudEffect}
    (undeleted : Undeleted fx) : Plain (t, fx) := by
  unfold Plain
  rw [held]
  exact ⟨surveyed_installing i, trivial, undeleted⟩

omit [World] in
theorem plain_validate (s : HudStore) (offer : Offer) : Plain (s.validate offer) :=
  plain_installing rfl (fun _ mem => nomatch mem_singleton.mp mem)

omit [World] in
theorem plain_writePack (s : HudStore) (offer : Offer) (metadata : Meta) (d : Nat) : Plain (s.writePack offer metadata d) := by
  unfold writePack
  split
  · exact plain_ended s _
  · exact plain_installing rfl (fun _ mem => nomatch mem_singleton.mp mem)

omit [World] in
theorem plain_finishRemoval (s : HudStore) (id : String) (incomplete : Bool) : Plain (s.finishRemoval id incomplete) := by
  unfold finishRemoval
  simp only
  split
  · refine ⟨surveyed_idle, trivial, fun at_ mem => ?_⟩
    simp at mem
  · refine ⟨surveyed_idle, trivial, fun at_ mem => ?_⟩
    simp at mem

theorem plain_advanceRemoval (s : HudStore) (id : String) (incomplete : Bool) (dirs : List Nat) :
    Plain (s.advanceRemoval id incomplete dirs) :=
  advanceRemoval_rule incomplete (plain_finishRemoval s id)
    (fun _ _ _ _ => ⟨surveyed_removing _, trivial, fun _ mem => nomatch mem_singleton.mp mem⟩)

variable {ev : HudEvent} {stepped : Stepped}

theorem moved_plain (free : s.pendingWrite = none) (before : s.op.Surveyed)
    (plain : Plain stepped) (dirs : stepped.1.dirs = s.dirs) (setup : stepped.1.setup = s.setup) :
    Learns s ev stepped ∧ stepped.1.op.Phased :=
  ⟨.moved free before plain.1 dirs setup plain.2.2, plain.2.1⟩

omit [World] in
theorem discard_settles {d : Nat} {sha : Sha} (dirs : stepped.1.dirs = s.dirs)
    (setup : stepped.1.setup = s.setup) (taken : ∀ e ∈ s.discard d sha, e ∈ stepped.2) : Settles stepped d sha := by
  unfold discard at taken
  split at taken
  · rename_i named
    refine .inl ?_
    rw [dir_same dirs]
    exact Index.names_iff.mp named
  · have loc : stepped.1.loc d (packRel sha) = s.loc d (packRel sha) := by
      unfold HudStore.loc HudStore.rootOf
      rw [setup]
    refine .inr (.inr ?_)
    rw [loc]
    exact taken _ (mem_singleton_self _)

omit [World] in
theorem strayOf_mem (h : s.DirsSound) {d : Nat} (inHand : s.InHand d) (sha : Sha) :
    (s.rootOf d, sha) ∈ s.strayOf d sha := by
  have inside : d < s.setup.candidates.length := inHand.1.trans_eq h.matched
  unfold strayOf rootOf
  rw [List.getElem?_eq_getElem inside]
  exact mem_singleton_self _

section
variable {tag : Tag} {offer : Offer} {metadata : Meta} {d : Nat}

omit [World] in
theorem writePack_unlaid (s : HudStore) (offer : Offer) (metadata : Meta) (d : Nat) (offer' : Offer)
    (metadata' : Meta) (d' : Nat) (index : Index) (replaced : Option Sha) :
    (s.writePack offer metadata d).1.op.step? ≠ some (.writing offer' metadata' d' (.index index replaced)) := by
  intro reached
  obtain ⟨e, eq⟩ := writePack_step reached
  cases eq

theorem packDone_learns (held : s.op = .installing ⟨tag, .writing offer metadata d .pack⟩) (sound : s.Sound) :
    Learns s (.written tag .done) (HudStore.writeIndex { s with op := .idle } offer metadata d) := by
  have own : s.StepSound (.writing offer metadata d .pack) := by
    have op := sound.op
    rw [held] at op
    exact op
  refine .wrote ?_ ?_ (surveyed_installing _) ?_ rfl ?_ (fun e sha mem => ?_)
  · simp [pendingWrite, held]
  · rw [held]
    rfl
  · unfold caughtUp
    rw [held]
    rfl
  · intro offer' metadata' d' index replaced reached
    cases reached
    exact ⟨rfl, by rw [held]; rfl, fun _ mem => nomatch mem_singleton.mp mem⟩
  · simp only [unsure, held, if_true, mem_singleton] at mem
    obtain ⟨rfl, rfl⟩ := mem
    refine .inr (.inl ⟨mem_append_left _ (strayOf_mem sound.dirs own.2.1 offer.sha), ?_⟩)
    rintro ⟨offer', metadata', e, reached⟩
    cases reached

theorem packRefused_learns (held : s.op = .installing ⟨tag, .writing offer metadata d .pack⟩) :
    Learns s (.written tag .refused) (HudStore.writePack { s with op := .idle } offer metadata (d + 1)) := by
  obtain ⟨dirs, -, setup⟩ := writePack_same { s with op := .idle } offer metadata (d + 1)
  refine .wrote ?_ ?_ (plain_writePack _ offer metadata (d + 1)).1 ?_ setup ?_ (fun e sha mem => ?_)
  · simp [pendingWrite, held]
  · rw [held]
    rfl
  · unfold caughtUp
    rw [held]
    exact dirs
  · exact fun _ _ _ _ _ reached => absurd reached (writePack_unlaid _ _ _ _ _ _ _ _ _)
  · simp [unsure, held] at mem

variable {index : Index} {replaced : Option Sha}

section
variable (held : s.op = .installing ⟨tag, .writing offer metadata d (.index index replaced)⟩)
include held

theorem indexDone_learns
    (sound : s.Sound) :
    Learns s (.written tag .done) (HudStore.indexWritten { s with op := .idle } offer metadata d index replaced) := by
  obtain ⟨ready, inHand, made, old⟩ : s.StepSound (.writing offer metadata d (.index index replaced)) := by
    have op := sound.op
    rw [held] at op
    exact op
  have here : (HudStore.landed { s with op := .idle } offer metadata d index).dir d = { s.dir d with index := index } := by
    refine (dir_withDir { s with op := .idle } d _ d).trans (if_pos ⟨rfl, inHand.1⟩)
  have named : Index.Names ((HudStore.landed { s with op := .idle } offer metadata d index).dir d).index offer.sha := by
    rw [here]
    refine ⟨metadata.id, newRecord offer metadata, ?_, rfl⟩
    rw [made, SortedMap.lookup_insert_self]
  refine .wrote ?_ ?_ surveyed_idle ?_ rfl (fun _ _ _ _ _ reached => nomatch reached) (fun e sha mem => ?_)
  · simp [pendingWrite, held]
  · rw [held]
    rfl
  · unfold caughtUp
    rw [held]
    rfl
  · simp only [unsure, held, mem_cons, Prod.mk.injEq, mem_map, Option.mem_toList] at mem
    rcases mem with ⟨rfl, rfl⟩ | ⟨gone, was, rfl, rfl⟩
    · exact .inl named
    · cases was
      by_cases eq : gone = offer.sha
      · subst eq
        exact .inl named
      · refine discard_settles (s := HudStore.landed { s with op := .idle } offer metadata d index) rfl rfl (fun e taken => ?_)
        refine mem_append_left _ ?_
        simp only [discardReplaced, if_neg eq]
        exact taken

theorem indexRefused_learns
    (sound : s.Sound) :
    Learns s (.written tag .refused) (HudStore.indexRefused { s with op := .idle } offer metadata d) := by
  obtain ⟨ready, inHand, made, old⟩ : s.StepSound (.writing offer metadata d (.index index replaced)) := by
    have op := sound.op
    rw [held] at op
    exact op
  obtain ⟨dirs, -, setup⟩ := writePack_same { s with op := .idle } offer metadata (d + 1)
  refine .wrote ?_ ?_ (plain_writePack _ offer metadata (d + 1)).1 ?_ setup ?_ (fun e sha mem => ?_)
  · simp [pendingWrite, held]
  · rw [held]
    rfl
  · unfold caughtUp
    rw [held]
    exact dirs
  · exact fun _ _ _ _ _ reached => absurd reached (writePack_unlaid _ _ _ _ _ _ _ _ _)
  · simp only [unsure, held, mem_cons, mem_map, Option.mem_toList] at mem
    rcases mem with ⟨rfl, rfl⟩ | ⟨gone, was, rfl, rfl⟩
    · exact discard_settles (s := { s with op := .idle }) dirs setup (fun e taken => mem_append_left _ taken)
    · rw [old] at was
      obtain ⟨record, kept, rfl⟩ := Option.map_eq_some_iff.mp was
      refine .inl ⟨metadata.id, record, ?_, rfl⟩
      have eq : ∀ e, (HudStore.writePack { s with op := .idle } offer metadata (d + 1)).1.dir e = s.dir e := dir_same dirs
      exact (congrArg (fun dir : Dir => dir.index.lookup metadata.id) (eq d)).trans kept

end

end

theorem free_installing {i : Installing} (held : s.op = .installing i) (inert : i.step.writes = false) :
    s.pendingWrite = none ∧ s.op.Surveyed := by
  obtain ⟨tag, step⟩ := i
  refine ⟨?_, by rw [held]; exact surveyed_installing _⟩
  unfold pendingWrite
  rw [held]
  cases step with
  | writing offer metadata d what => cases inert
  | _ => rfl

theorem Proceeds.learns {tag : Tag} {step : Step}
    (proceeds : Proceeds { s with op := .idle } tag step ev stepped) (held : s.op = .installing ⟨tag, step⟩) (sound : s.Sound)
    (tagged : answerTag ev = some tag) : Learns s ev stepped ∧ stepped.1.op.Phased := by
  have moved (inert : step.writes = false) {t : Stepped} (plain : Plain t) (dirs : t.1.dirs = s.dirs)
      (setup : t.1.setup = s.setup) : Learns s ev t ∧ t.1.op.Phased := by
    obtain ⟨free, before⟩ := free_installing held inert
    exact moved_plain free before plain dirs setup
  cases proceeds with
  | refused inert sha reason => exact moved inert (plain_ended _ _) rfl rfl
  | failed inert reason => exact moved inert (plain_ended _ _) rfl rfl
  | reread given bytes => exact moved rfl (plain_validate _ _) rfl rfl
  | fetched given bytes => exact moved rfl (plain_validate _ _) rfl rfl
  | offered given ok unconfirmed => exact moved rfl (plain_installing rfl undeleted_nil) rfl rfl
  | begun given ok confirmed =>
    obtain ⟨dirs, -, setup⟩ := writePack_same { s with op := .idle } _ _ 0
    exact moved rfl (plain_writePack _ _ _ _) dirs setup
  | packDone given =>
    cases tagged
    exact ⟨packDone_learns held sound, trivial⟩
  | packRefused given =>
    cases tagged
    exact ⟨packRefused_learns held, (plain_writePack _ _ _ _).2.1⟩
  | indexDone given =>
    cases tagged
    exact ⟨indexDone_learns held sound, trivial⟩
  | indexRefused given =>
    cases tagged
    exact ⟨indexRefused_learns held sound, (plain_writePack _ _ _ _).2.1⟩

theorem rewritten_learns {id : String} {ds : List Nat} {incomplete : Bool} {r : Rewrite} (sound : s.Sound)
    (held : s.op = .removing ⟨id, ds, incomplete, some r⟩) (outcome : WriteOutcome) :
    Learns s (.written r.tag outcome) (HudStore.rewritten { s with op := .idle } ⟨id, ds, incomplete, none⟩ r outcome) ∧
      (HudStore.rewritten { s with op := .idle } ⟨id, ds, incomplete, none⟩ r outcome).1.op.Phased := by
  obtain ⟨inHand, made, record, kept, gone⟩ : s.RewriteSound id r := by
    have op := sound.op
    rw [held] at op
    exact op.2 r rfl
  have free : s.pendingWrite ≠ none := by simp [pendingWrite, held]
  have awaited : s.op.awaits = some ⟨r.tag, .write⟩ := by
    rw [held]
    rfl
  have unlaid : ∀ (t : HudStore) (id : String) (incomplete : Bool) (dirs : List Nat) (step : Step),
      (t.advanceRemoval id incomplete dirs).1.op.step? ≠ some step := by
    intro t id incomplete dirs step reached
    rw [advanceRemoval_step] at reached
    cases reached
  cases outcome with
  | done =>
    have plain := plain_advanceRemoval (HudStore.withIndex { s with op := .idle } r.dir r.index) id incomplete ds
    obtain ⟨dirs, setup⟩ := advanceRemoval_same (HudStore.withIndex { s with op := .idle } r.dir r.index) id incomplete ds
    refine ⟨.wrote free awaited plain.1 ?_ setup (fun _ _ _ _ _ reached => absurd reached (unlaid _ _ _ _ _)) (fun d sha mem => ?_), plain.2.1⟩
    · unfold caughtUp
      rw [held]
      exact dirs
    · simp only [unsure, held, mem_map] at mem
      obtain ⟨sha, mem, rfl, rfl⟩ := mem
      refine discard_settles (s := HudStore.withIndex { s with op := .idle } r.dir r.index) dirs setup (fun e taken => ?_)
      exact mem_append_left _ (mem_flatMap.mpr ⟨sha, mem, taken⟩)
  | refused =>
    have plain := plain_advanceRemoval { s with op := .idle } id true ds
    obtain ⟨dirs, setup⟩ := advanceRemoval_same { s with op := .idle } id true ds
    refine ⟨.wrote free awaited plain.1 ?_ setup (fun _ _ _ _ _ reached => absurd reached (unlaid _ _ _ _ _)) (fun d sha mem => ?_), plain.2.1⟩
    · unfold caughtUp
      rw [held]
      exact dirs
    · simp only [unsure, held, mem_map] at mem
      obtain ⟨sha, mem, rfl, rfl⟩ := mem
      rw [gone, mem_singleton] at mem
      refine .inl ⟨id, record, ?_, mem.symm⟩
      have eq : (HudStore.advanceRemoval { s with op := .idle } id true ds).1.dir r.dir = s.dir r.dir :=
        dir_same (s := s) dirs r.dir
      exact (congrArg (fun dir : Dir => dir.index.lookup id) eq).trans kept

end

section
variable {s : HudStore}
variable {ev : HudEvent}

theorem kept_learns (phased : s.op.Phased) {t : HudStore} {fx : List HudEffect} (op : t.op = s.op)
    (tags : t.tags = s.tags) (dirs : t.dirs = s.dirs) (setup : t.setup = s.setup) (still : ∀ e ∈ fx, e.still = true) :
    Learns s ev (t, fx) ∧ t.op.Phased :=
  ⟨.kept op tags dirs setup still, by rw [op]; exact phased⟩

theorem beginListing_learns (s : HudStore) (setup : Setup) (selected : String) :
    Learns s (.refresh setup selected) (s.beginListing setup selected) ∧ (s.beginListing setup selected).1.op.Phased := by
  have later : ∀ j ∈ (List.range setup.candidates.length).map Job.scan, j.later = true := by
    intro j mem
    obtain ⟨d, -, rfl⟩ := mem_map.mp mem
    rfl
  obtain ⟨-, -, here⟩ :=
    advance_same (s.forgotten setup selected) s.displaced.1 (listingJobs setup.candidates.length)
  obtain ⟨phased, waits, on⟩ :=
    advance_surveys (s.forgotten setup selected) s.displaced.1 (List.range setup.candidates.length) later
  have told : Undeleted s.displaced.2 := by
    unfold displaced
    split
    · exact undeleted_nil
    · exact undeleted_nil
    · exact undeleted_notice _
    · exact undeleted_notice _
  refine ⟨.refreshed here (fun d => ⟨fun open_ => ?_, fun inside => waits d (mem_range.mpr inside)⟩) ?_
    (advance_resting _ _ _) ?_, phased⟩
  · rcases on with ⟨-, -, fewer⟩ | ⟨-, surveyed, -⟩
    · exact mem_range.mp (fewer d open_)
    · exact absurd open_ (surveyed d)
  · intro some_
    rcases on with ⟨-, carried, -⟩ | ⟨none_, -⟩
    · exact carried
    · exact absurd (eq_nil_of_length_eq_zero (range_eq_nil.mp none_)) some_
  · refine told.append ?_
    rcases on with ⟨undeleted, -⟩ | ⟨none_, -⟩
    · exact undeleted
    · have nowhere := eq_nil_of_length_eq_zero (range_eq_nil.mp none_)
      obtain ⟨-, -, fx, whole, undeleted⟩ := advance_plan (s.forgotten setup selected) s.displaced.1 later
      unfold listingJobs
      rw [none_] at whole ⊢
      rw [reclaim_nowhere _ nowhere] at whole
      rw [show (List.map Job.index [] ++ Job.plan :: List.map Job.scan []) = Job.plan :: List.map Job.scan [] from rfl, whole]
      exact undeleted

theorem Reduces.learns {turn : Turn} (reduces : s.Reduces ev turn) (sound : s.Sound) (phased : s.op.Phased) :
    Learns s ev (turn.store, turn.fx) ∧ turn.store.op.Phased := by
  have idling (idle : s.op = .idle) : s.pendingWrite = none ∧ s.op.Surveyed := by
    unfold pendingWrite
    rw [idle]
    exact ⟨rfl, surveyed_idle⟩
  cases reduces with
  | kept => exact kept_learns phased rfl rfl rfl rfl (fun _ mem => nomatch mem)
  | catalog event =>
    refine kept_learns phased rfl rfl rfl rfl (fun e mem => ?_)
    obtain ⟨inner, -, rfl⟩ := mem_map.mp mem
    rfl
  | refreshed setup selected => exact beginListing_learns s setup selected
  | selected id => exact kept_learns phased rfl rfl rfl rfl (fun e mem => mem_singleton.mp mem ▸ rfl)
  | tooLarge idle bytes source now => exact kept_learns phased rfl rfl rfl rfl (fun e mem => mem_singleton.mp mem ▸ rfl)
  | begun idle begins =>
    refine moved_plain (idling idle).1 (idling idle).2 (plain_installing rfl ?_) rfl rfl
    cases begins <;> exact fun _ mem => nomatch mem_singleton.mp mem
  | abandoned held inert =>
    obtain ⟨free, before⟩ := free_installing held inert
    exact moved_plain free before ⟨surveyed_idle, trivial, undeleted_nil⟩ rfl rfl
  | revoked held now =>
    obtain ⟨free, before⟩ := free_installing held rfl
    exact moved_plain free before (plain_ended s _) rfl rfl
  | @confirmed tag offer metadata held now =>
    obtain ⟨free, before⟩ := free_installing held rfl
    obtain ⟨dirs, -, setup⟩ := writePack_same { s with op := .idle } { offer with now := some now } metadata 0
    exact moved_plain free before (plain_writePack _ _ _ _) dirs setup
  | removed idle id =>
    obtain ⟨dirs, setup⟩ := advanceRemoval_same s id false (s.holders id)
    exact moved_plain (idling idle).1 (idling idle).2 (plain_advanceRemoval s id false (s.holders id)) dirs setup
  | @listed ev l f stepped held flying tagged answered =>
    have own : l.Phased := by
      rw [held] at phased
      exact phased
    exact listingAnswer_learns held own flying tagged answered
  | installed held tagged proceeds => exact proceeds.learns held sound tagged
  | rewrote held outcome => exact rewritten_learns sound held outcome

theorem reduce_learns (sound : s.Sound) (phased : s.op.Phased) (ev : HudEvent) :
    Learns s ev ((s.reduce ev).store, (s.reduce ev).fx) ∧ (s.reduce ev).store.op.Phased :=
  (reduce_reduces s ev).learns sound phased

omit [World] in
theorem strays_same {t u : HudStore} (op : u.op = t.op) (setup : u.setup = t.setup) : u.strays = t.strays := by
  unfold strays displaced displacedStep strayRemoval strayReplaced strayOf
  rw [op, setup]

theorem Learns.settled {t u : HudStore} {fx rule : List HudEffect} (learns : Learns s ev (t, fx))
    (op : u.op = t.op) (tags : u.tags = t.tags) (dirs : u.dirs = t.dirs) (setup : u.setup = t.setup)
    (still : ∀ e ∈ rule, e.still = true) : Learns s ev (u, fx ++ rule) := by
  have undeleted : Undeleted rule := fun at_ mem => nomatch still _ mem
  have strays : u.strays = t.strays := strays_same op setup
  have loc : ∀ d rel, u.loc d rel = t.loc d rel := by
    intro d rel
    unfold HudStore.loc HudStore.rootOf
    rw [setup]
  have pending : u.pendingWrite = t.pendingWrite := by
    unfold pendingWrite
    simp only [op, loc]
  have stands : ∀ d sha, Index.Names (u.dir d).index sha ↔ Index.Names (t.dir d).index sha := by
    intro d sha
    rw [dir_same dirs]
  cases learns with
  | kept op' tags' dirs' setup' still' =>
    refine .kept (op.trans op') (tags.trans tags') (dirs.trans dirs') (setup.trans setup') (fun e mem => ?_)
    rcases mem_append.mp mem with old | new_
    · exact still' e old
    · exact still e new_
  | moved free before after dirs' setup' undeleted' =>
    exact .moved free before (by rw [op]; exact after) (dirs.trans dirs') (setup.trans setup') (undeleted'.append undeleted)
  | refreshed here unread carried resting undeleted' =>
    exact .refreshed (setup.trans here) (by rw [op]; exact unread) (by rw [strays]; exact carried) (pending.trans resting)
      (undeleted'.append undeleted)
  | read d reading awaited dirs' setup' fewer resting on =>
    refine .read d reading awaited (dirs.trans dirs') (setup.trans setup') (by rw [op]; exact fewer) (pending.trans resting) ?_
    rw [op, strays]
    refine on.imp (fun first => ⟨first.1.append undeleted, first.2⟩) (fun last => ⟨last.1, ?_⟩)
    intro root sha e mem found access
    simp only [setup, dir_same dirs] at found access
    rcases last.2 root sha e mem found access with named | gone
    · exact .inl ((stands e sha).mpr named)
    · refine .inr (mem_append_left _ ?_)
      rw [loc]
      exact gone
  | wrote free awaited after dirs' setup' laid settles =>
    refine .wrote free awaited (by rw [op]; exact after) (dirs.trans dirs') (setup.trans setup') ?_ (fun d sha mem => ?_)
    · intro offer metadata d index replaced reached
      rw [op] at reached
      obtain ⟨done, held, kept⟩ := laid offer metadata d index replaced reached
      exact ⟨done, held, kept.append undeleted⟩
    rcases settles d sha mem with named | held | gone
    · exact .inl ((stands d sha).mpr named)
    · refine .inr (.inl ?_)
      simp only [strays]
      have root : u.rootOf d = t.rootOf d := congrArg Loc.root (loc d "")
      unfold WritesPack
      rw [root, op]
      exact held
    · refine .inr (.inr (mem_append_left _ ?_))
      simp only [loc]
      exact gone

theorem turn_learns (sound : s.Sound) (phased : s.op.Phased) (ev : HudEvent) :
    Learns s ev ((s.turn ev).1, (s.turn ev).2.2) ∧ (s.turn ev).1.op.Phased := by
  obtain ⟨learns, next⟩ := reduce_learns sound phased ev
  obtain ⟨dirs, -, setup⟩ := settle_same (s.reduce ev)
  obtain ⟨op, tags, -⟩ := settle_op (s.reduce ev)
  obtain ⟨rule, whole, told⟩ := settle_fx (s.reduce ev)
  constructor
  · have fx : (s.turn ev).2.2 = (s.reduce ev).fx ++ rule := whole
    rw [fx]
    refine learns.settled op tags dirs setup (fun e mem => ?_)
    rw [told e mem]
    rfl
  · have eq : (s.turn ev).1.op = (s.reduce ev).store.op := op
    rw [eq]
    exact next

end
end HudStore
end PlxNative.Hud
