import PlxNative.Hud.Intact

/-! Work that is displaced leaves no pack behind that no index names, as long as nothing
displaces the listing that is to take it away. -/
namespace PlxNative.Hud
open List
open Transducer (Event event history history_holds run)

namespace HudStore
variable [World] {s t : HudStore} {disk : Disk} {lands : Bool} {fx : List HudEffect}

section

variable {told : Notice → Prop}

omit [World] in
theorem execute_index {e : HudEffect} (takes : Takes told t e) (root : PathBuf) :
    execute lands disk e ⟨root, indexFile⟩ = disk ⟨root, indexFile⟩ := by
  cases e with
  | delete at_ =>
    obtain ⟨d, sha, rfl, -⟩ := takes
    exact update_index (.inl (packRel_ne_indexFile sha))
  | catalog inner => rfl
  | selection id => rfl
  | notice n => rfl
  | _ => exact absurd takes not_false

section
variable (takes : ∀ e ∈ fx, Takes told t e)
include takes

omit [World] in
theorem executed_index (root : PathBuf) :
    executed lands disk fx ⟨root, indexFile⟩ = disk ⟨root, indexFile⟩ := by
  induction fx generalizing disk with
  | nil => rfl
  | cons e rest ih =>
    refine (ih (fun e mem => takes e (mem_cons_of_mem _ mem))).trans ?_
    exact execute_index (takes e mem_cons_self) root

theorem takes_lists (root : PathBuf) (sha : Sha) :
    Lists (executed lands disk fx) root sha ↔ Lists disk root sha := by
  unfold Lists
  rw [executed_index takes]

omit [World] in
theorem takes_files {at_ : Loc}
    (there : executed lands disk fx at_ ≠ none) : disk at_ ≠ none ∧ .delete at_ ∉ fx := by
  induction fx generalizing disk with
  | nil => exact ⟨there, not_mem_nil⟩
  | cons e rest ih =>
    obtain ⟨before, later⟩ := ih (fun e mem => takes e (mem_cons_of_mem _ mem)) there
    have own := takes e mem_cons_self
    cases e with
    | delete gone =>
      have other : gone ≠ at_ := by
        rintro rfl
        exact before (Function.update_self _ _ _)
      refine ⟨?_, fun mem => ?_⟩
      · exact fun none_ => before ((Function.update_of_ne (Ne.symm other) _ _).trans none_)
      · rcases mem_cons.mp mem with eq | old
        · exact other (HudEffect.delete.inj eq).symm
        · exact later old
    | catalog inner => exact ⟨before, fun mem => later ((mem_cons.mp mem).resolve_left nofun)⟩
    | selection id => exact ⟨before, fun mem => later ((mem_cons.mp mem).resolve_left nofun)⟩
    | notice n => exact ⟨before, fun mem => later ((mem_cons.mp mem).resolve_left nofun)⟩
    | _ => exact absurd own not_false

omit [World] in
theorem takes_unwritten : fx.filterMap (packWritten lands) = [] := by
  refine filterMap_eq_nil_iff.mpr (fun e mem => ?_)
  have own := takes e mem
  cases e <;> first | rfl | exact absurd own not_false

end

omit [World] in
theorem still_unwritten (still : ∀ e ∈ fx, e.still = true) : fx.filterMap (packWritten lands) = [] := by
  refine filterMap_eq_nil_iff.mpr (fun e mem => ?_)
  have own := still e mem
  cases e <;> first | rfl | cases own

theorem tail_cases (asked : Tail t fx) :
    executed lands disk fx = disk ∧ fx.filterMap (packWritten lands) = [] ∨
      lands = true ∧ ∃ at_ bytes, t.pendingWrite = some (at_, bytes) ∧ executed lands disk fx = Function.update disk at_ (some bytes) ∧
        fx.filterMap (packWritten lands) = if at_.rel = indexFile then [] else [at_] := by
  unfold Tail at asked
  split at asked
  · exact .inl ⟨rfl, rfl⟩
  · rename_i tag at_ bytes
    cases lands with
    | false => exact .inl ⟨rfl, rfl⟩
    | true =>
      refine .inr ⟨rfl, at_, bytes, asked, rfl, ?_⟩
      by_cases index : at_.rel = indexFile <;> simp [packWritten, index]
  all_goals first | exact absurd asked not_false | exact .inl ⟨rfl, rfl⟩

end

section

variable {p : PathBuf × Sha}

omit [World] in
theorem strayOf_rooted {d : Nat} {sha : Sha} (mem : p ∈ t.strayOf d sha) :
    p = (t.rootOf d, sha) ∧ d < t.setup.candidates.length := by
  unfold strayOf at mem
  unfold rootOf
  cases held : t.setup.candidates[d]? with
  | none =>
    rw [held] at mem
    cases mem
  | some c =>
    rw [held] at mem
    exact ⟨mem_singleton.mp mem, (List.getElem?_eq_some_iff.mp held).1⟩

omit [World] in
/-- What a write may leave behind is a pack of the directory it is made in, which it leaves to
be told or taken away unless it is a pack that was refused. -/
theorem displaced_unsure (outcome : WriteOutcome) (mem : p ∈ s.displaced.1) :
    ∃ d, d < s.setup.candidates.length ∧ p.1 = s.rootOf d ∧
      ((d, p.2) ∈ s.unsure outcome ∨ outcome = .refused ∧ s.WritesPack) := by
  unfold displaced at mem
  split at mem
  · cases mem
  · cases mem
  · rename_i i held
    obtain ⟨tag, step⟩ := i
    cases step with
    | writing offer metadata d what =>
      rcases mem_append.mp mem with own | old
      · obtain ⟨rfl, inside⟩ := strayOf_rooted own
        refine ⟨d, inside, rfl, ?_⟩
        cases what with
        | pack =>
          cases outcome with
          | done => exact .inl (by simp [unsure, held])
          | refused => exact .inr ⟨rfl, offer, metadata, d, by rw [held]; rfl⟩
        | index index replaced => exact .inl (by simp [unsure, held])
      · cases what with
        | pack => cases old
        | index index replaced =>
          cases replaced with
          | none => cases old
          | some gone =>
            simp only [strayReplaced] at old
            split at old
            · cases old
            · obtain ⟨rfl, inside⟩ := strayOf_rooted old
              exact ⟨d, inside, rfl, .inl (by simp [unsure, held])⟩
    | _ => cases mem
  · rename_i r held
    obtain ⟨id, ds, incomplete, flight⟩ := r
    cases flight with
    | none => cases mem
    | some r =>
      obtain ⟨sha, gone, own⟩ := mem_flatMap.mp mem
      obtain ⟨rfl, inside⟩ := strayOf_rooted own
      refine ⟨r.dir, inside, rfl, .inl ?_⟩
      simp only [unsure, held]
      exact mem_map.mpr ⟨sha, gone, rfl⟩

theorem displaced_inHand (sound : t.Sound) (mem : p ∈ t.displaced.1) :
    ∃ d, t.InHand d ∧ p.1 = t.rootOf d := by
  have op := sound.op
  unfold displaced at mem
  split at mem
  · cases mem
  · cases mem
  · rename_i i held
    obtain ⟨tag, step⟩ := i
    rw [held] at op
    cases step with
    | writing offer metadata d what =>
      refine ⟨d, op.2.1, ?_⟩
      rcases mem_append.mp mem with own | old
      · exact congrArg Prod.fst (strayOf_rooted own).1
      · cases what with
        | pack => cases old
        | index index replaced =>
          cases replaced with
          | none => cases old
          | some gone =>
            simp only [strayReplaced] at old
            split at old
            · cases old
            · exact congrArg Prod.fst (strayOf_rooted old).1
    | _ => cases mem
  · rename_i r held
    obtain ⟨id, ds, incomplete, flight⟩ := r
    rw [held] at op
    cases flight with
    | none => cases mem
    | some r =>
      obtain ⟨sha, -, own⟩ := mem_flatMap.mp mem
      exact ⟨r.dir, (op.2 r rfl).1, congrArg Prod.fst (strayOf_rooted own).1⟩

theorem pending_cases (sound : t.Sound) {at_ : Loc} {bytes : Bytes} (pending : t.pendingWrite = some (at_, bytes)) :
    (∃ offer metadata d, t.op.step? = some (.writing offer metadata d .pack) ∧ at_ = t.loc d (packRel offer.sha) ∧
        (t.rootOf d, offer.sha) ∈ t.strays) ∨
      ¬ t.WritesPack ∧ ∃ d index, at_ = t.loc d indexFile ∧ bytes = indexBytes index ∧ t.pendingIndex = some index ∧ t.InHand d ∧
        ∀ sha, Index.Names (t.dir d).index sha → Index.Names index sha ∨ (t.rootOf d, sha) ∈ t.strays := by
  have op := sound.op
  unfold pendingWrite at pending
  split at pending
  · rename_i tag offer metadata d held
    cases pending
    rw [held] at op
    refine .inl ⟨offer, metadata, d, by rw [held]; rfl, rfl, ?_⟩
    unfold strays displaced
    rw [held]
    exact mem_append_left _ (strayOf_mem sound.dirs op.2.1 offer.sha)
  · rename_i tag offer metadata d index replaced held
    cases pending
    rw [held] at op
    obtain ⟨ready, inHand, made, old⟩ := op
    refine .inr ⟨?_, d, index, rfl, rfl, by unfold pendingIndex; rw [held], inHand, ?_⟩
    · rintro ⟨offer', metadata', e, reached⟩
      rw [held] at reached
      cases reached
    · rintro sha ⟨id, record, kept, rfl⟩
      by_cases eq : id = metadata.id
      · subst eq
        by_cases again : record.sha = offer.sha
        · refine .inl ⟨metadata.id, newRecord offer metadata, ?_, again.symm⟩
          rw [made, SortedMap.lookup_insert_self]
        · refine .inr ?_
          rw [kept] at old
          unfold strays displaced
          rw [held]
          refine mem_append_right _ ?_
          rw [old]
          simp only [Option.map_some, strayReplaced, if_neg again]
          exact strayOf_mem sound.dirs inHand record.sha
      · refine .inl ⟨id, record, ?_, rfl⟩
        rw [made, SortedMap.lookup_insert, if_neg eq]
        exact kept
  · rename_i id ds incomplete r held
    cases pending
    rw [held] at op
    obtain ⟨inHand, made, record, held', gone⟩ := op.2 r rfl
    refine .inr ⟨?_, r.dir, r.index, rfl, rfl, by unfold pendingIndex; rw [held], inHand, ?_⟩
    · rintro ⟨offer', metadata', e, reached⟩
      rw [held] at reached
      cases reached
    · rintro sha ⟨id', record', kept, rfl⟩
      by_cases eq : id' = id
      · subst eq
        cases held'.symm.trans kept
        refine .inr ?_
        unfold strays displaced
        rw [held]
        refine mem_flatMap.mpr ⟨record.sha, by rw [gone]; exact mem_singleton_self _, ?_⟩
        exact strayOf_mem sound.dirs inHand record.sha
      · refine .inl ⟨id', record', ?_, rfl⟩
        rw [made, SortedMap.lookup_erase, if_neg eq]
        exact kept
  · cases pending

omit [World] in
theorem rootOf_mem {d : Nat} (inside : d < t.setup.candidates.length) : t.rootOf d ∈ t.setup.candidates.map Candidate.dir := by
  unfold rootOf
  rw [List.getElem?_eq_getElem inside]
  exact mem_map_of_mem (getElem_mem inside)

omit [World] in
theorem findIdx_rootOf {root : PathBuf} (mem : root ∈ t.setup.candidates.map Candidate.dir) :
    ∃ d, t.setup.candidates.findIdx? (fun c => c.dir = root) = some d ∧ d < t.setup.candidates.length ∧ t.rootOf d = root := by
  cases found : t.setup.candidates.findIdx? (fun c => decide (c.dir = root)) with
  | none =>
    obtain ⟨c, inside, eq⟩ := mem_map.mp mem
    have none_ := List.findIdx?_eq_none_iff.mp found c inside
    simp [eq] at none_
  | some d =>
    obtain ⟨inside, eq, -⟩ := List.findIdx?_eq_some_iff_getElem.mp found
    refine ⟨d, rfl, inside, ?_⟩
    unfold rootOf
    rw [List.getElem?_eq_getElem inside]
    exact of_decide_eq_true eq

/-- What a listing carries of work it displaced. -/
def carried (s : HudStore) : List (PathBuf × Sha) :=
  match s.op with
  | .listing l => l.stray
  | _ => []

omit [World] in
theorem strays_of_carried (none_ : s.carried = []) (mem : p ∈ s.strays) : p ∈ s.displaced.1 := by
  unfold strays at mem
  unfold carried at none_
  split at mem
  · rename_i held
    simp only [held] at none_
    rw [none_] at mem
    cases mem
  · exact mem

omit [World] in
theorem strays_of_displaced (mem : p ∈ s.displaced.1) : p ∈ s.strays := by
  unfold strays
  split
  · rename_i held
    unfold displaced at mem
    rw [held] at mem
    cases mem
  · exact mem

theorem strays_of_pending (pending : s.pendingWrite ≠ none) : s.strays = s.displaced.1 := by
  unfold strays
  split
  · rename_i held
    exact absurd (listing_free held) pending
  · rfl

end
end HudStore

/-- The directories a refresh is made with. -/
def HudEvent.setup? : HudEvent → Option Setup
  | .refresh setup _ => some setup
  | _ => none

def HudEvent.found? : HudEvent → Option (Tag × Except ReadError Bytes)
  | .read tag result => some (tag, result)
  | _ => none

/-- A file of the store's that is there is a pack that the index of its directory lists, or
that is in hand. -/
def Accounts [World] (disk : Disk) (strays : List (PathBuf × Sha)) (at_ : Loc) : Prop :=
  disk at_ ≠ none → ∃ sha, at_.rel = packRel sha ∧ (Lists disk at_.root sha ∨ (at_.root, sha) ∈ strays)

/-- An index that is not there, or can be read whole. -/
def Legal [World] (disk : Disk) (root : PathBuf) : Prop :=
  ∀ bytes, disk ⟨root, indexFile⟩ = some bytes → (parseIndex bytes).access = .writable

section
variable [World] {disk : Disk} {at_ : Loc} {root : PathBuf}

theorem legal_same {other : Disk} (eq : disk ⟨root, indexFile⟩ = other ⟨root, indexFile⟩) : Legal disk root ↔ Legal other root := by
  unfold Legal
  rw [eq]

theorem legal_update {content : Bytes} (legal : Legal disk root)
    (own : at_ = ⟨root, indexFile⟩ → (parseIndex content).access = .writable) :
    Legal (Function.update disk at_ (some content)) root := by
  intro bytes held
  by_cases eq : at_ = ⟨root, indexFile⟩
  · rw [← eq, Function.update_self] at held
    cases held
    exact own eq
  · rw [Function.update_of_ne (Ne.symm eq)] at held
    exact legal bytes held

theorem indexRead_legal {result : Except ReadError Bytes} (fits : Fits (disk ⟨root, indexFile⟩) result)
    (heard : result ≠ .error .tooLarge ∧ result ≠ .error .failed) :
    (HudStore.indexRead result).access = .writable ↔ Legal disk root := by
  cases result with
  | ok bytes =>
    refine ⟨fun whole bytes' held => ?_, fun legal => legal bytes fits⟩
    cases held.symm.trans fits
    exact whole
  | error e =>
    cases e with
    | missing =>
      refine ⟨fun _ bytes held => ?_, fun _ => rfl⟩
      exact nomatch held.symm.trans (show disk ⟨root, indexFile⟩ = none from fits)
    | tooLarge => exact absurd rfl heard.1
    | failed => exact absurd rfl heard.2

end

namespace Home
open HudStore
variable [World] {whole : Prop} {candidates : List Candidate} {h : Home} {m : Move}

/-- Every refresh names the same directories, every index that is asked for is found or missing,
and the store can read the indexes it writes. -/
structure Steady (candidates : List Candidate) (e : Event Home Move (List HudEffect)) : Prop where
  same : ∀ setup ∈ e.input.event.setup?, setup.candidates = candidates
  heard : ∀ answer ∈ e.input.event.found?, e.before.store.op.awaits = some ⟨answer.1, .read⟩ →
    e.before.store.readingIndex.isSome = true → answer.2 ≠ .error .tooLarge ∧ answer.2 ≠ .error .failed
  own : ∀ index ∈ e.after.store.pendingIndex, (parseIndex (indexBytes index)).access = .writable

instance (candidates : List Candidate) (e : Event Home Move (List HudEffect)) : Decidable (Steady candidates e) :=
  decidable_of_iff ((∀ setup ∈ e.input.event.setup?, setup.candidates = candidates) ∧
      (∀ answer ∈ e.input.event.found?, e.before.store.op.awaits = some ⟨answer.1, .read⟩ →
        e.before.store.readingIndex.isSome = true → answer.2 ≠ .error .tooLarge ∧ answer.2 ≠ .error .failed) ∧
      ∀ index ∈ e.after.store.pendingIndex, (parseIndex (indexBytes index)).access = .writable)
    ⟨fun h => ⟨h.1, h.2.1, h.2.2⟩, fun h => ⟨h.1, h.2, h.3⟩⟩

omit [World] in
/-- No refresh comes while a listing has still to take away what displaced work left. -/
def Calm (h : Home) (m : Move) : Prop := m.event.isRefresh = true → h.store.carried = []

omit [World] in
instance (h : Home) (m : Move) : Decidable (h.Calm m) :=
  inferInstanceAs (Decidable (m.event.isRefresh = true → h.store.carried = []))

/-- What holds of a home in a steady and calm run. -/
structure Tidy (candidates : List Candidate) (h : Home) : Prop where
  here : h.store.setup.candidates = candidates ∨ h.store.setup.candidates = []
  known : ∀ d, d < h.store.dirs.length → ¬ h.store.op.Unread d →
    ((h.store.dir d).access = .writable ↔ Legal h.disk (h.store.rootOf d))
  legal : ∀ p ∈ h.store.strays, Legal h.disk p.1
  rooted : ∀ p ∈ h.store.strays, p.1 ∈ h.store.setup.candidates.map Candidate.dir
  packs : ∀ at_ ∈ h.wrote, at_.rel ≠ indexFile
  accounted : ∀ at_ ∈ h.wrote, Accounts h.disk h.store.strays at_
  refused : h.store.WritesPack → ∀ a ∈ h.asked, a.number = h.store.tags → a.due = .written .refused →
    ∀ at_ ∈ h.wrote, Accounts h.disk [] at_

theorem start_tidy (candidates : List Candidate) (disk : Disk) : (start disk).Tidy candidates where
  here := .inr rfl
  known := nofun
  legal := nofun
  rooted := nofun
  packs := nofun
  accounted := nofun
  refused := nofun

section
variable {t : HudStore} {fx : List HudEffect}

theorem Tidy.here_step (tidy : h.Tidy candidates) (steady : Steady candidates (event Home.step h m))
    (learns : Learns h.store m.event (t, fx)) : t.setup.candidates = candidates ∨ t.setup.candidates = [] := by
  obtain ⟨ev, number, lands⟩ := m
  cases learns with
  | @refreshed setup selected _ _ here => exact .inl (by rw [here]; exact steady.same setup rfl)
  | kept op tags dirs setup => rw [setup]; exact tidy.here
  | moved free before after dirs setup => rw [setup]; exact tidy.here
  | read d reading awaited dirs setup => rw [setup]; exact tidy.here
  | wrote pending awaited after dirs setup => rw [setup]; exact tidy.here

theorem Tidy.known_step (tidy : h.Tidy candidates) (kept : h.Kept whole) (steady : Steady candidates (event Home.step h m))
    (hears : h.Hears m) (prompt : h.Prompt m) (learns : Learns h.store m.event (t, fx)) (sound : t.DirsSound) :
    ∀ d, d < t.dirs.length → ¬ t.op.Unread d → ((t.dir d).access = .writable ↔ Legal h.disk (t.rootOf d)) := by
  obtain ⟨ev, number, lands⟩ := m
  intro e inside known
  cases learns with
  | kept op tags dirs setup still =>
    rw [dirs] at inside
    rw [op] at known
    rw [dir_same dirs, rootOf_same setup]
    exact tidy.known e inside known
  | moved free before after dirs setup undeleted =>
    rw [dirs] at inside
    rw [dir_same dirs, rootOf_same setup]
    exact tidy.known e inside (before e)
  | refreshed here unread carried resting undeleted =>
    rw [← here] at unread
    exact absurd ((unread e).mpr (inside.trans_eq sound.matched)) known
  | @read tag result _ _ d reading awaited dirs setup fewer resting on =>
    have inside' : e < h.store.dirs.length := by
      rw [dirs] at inside
      exact inside.trans_eq length_set
    rw [dir_same dirs, dir_withDir, rootOf_same setup]
    by_cases eq : d = e ∧ d < h.store.dirs.length
    · rw [if_pos eq]
      obtain ⟨rfl, -⟩ := eq
      obtain ⟨a, mem, number_, answered⟩ := kept.answered hears (prompt rfl) awaited
      rw [kept.reading d reading a mem number_] at answered
      refine indexRead_legal (answered rfl) (steady.heard (tag, result) rfl awaited ?_)
      show h.store.readingIndex.isSome = true
      rw [reading]
      rfl
    · rw [if_neg eq]
      refine tidy.known e inside' (fun unread => ?_)
      rcases fewer e unread with rfl | held
      · exact eq ⟨rfl, inside'⟩
      · exact known held
  | wrote pending awaited after dirs setup laid settles =>
    rw [dirs] at inside
    rw [dir_same dirs, caughtUp_access, rootOf_same setup]
    exact tidy.known e (inside.trans_eq (caughtUp_kept _ _).2.2) (read_of_pending pending e)

theorem strays_from (learns : Learns h.store m.event (t, fx)) (phased : t.op.Phased) (sound : t.Sound) :
    ∀ p ∈ t.strays, p ∈ h.store.strays ∨ ∃ d, t.InHand d ∧ ¬ t.op.Unread d ∧ p.1 = t.rootOf d := by
  have own : t.op.Surveyed → ∀ p ∈ t.strays, p ∈ h.store.strays ∨ ∃ d, t.InHand d ∧ ¬ t.op.Unread d ∧ p.1 = t.rootOf d := by
    intro surveyed p mem
    by_cases free : t.pendingWrite = none
    · rw [strays_nil phased surveyed free] at mem
      cases mem
    · rw [strays_of_pending free] at mem
      obtain ⟨d, inHand, root⟩ := displaced_inHand sound mem
      exact .inr ⟨d, inHand, surveyed d, root⟩
  obtain ⟨ev, number, lands⟩ := m
  intro p mem
  cases learns with
  | kept op tags dirs setup still =>
    rw [strays_same op setup] at mem
    exact .inl mem
  | moved free before after dirs setup undeleted => exact own after p mem
  | wrote pending awaited after dirs setup laid settles => exact own after p mem
  | read d reading awaited dirs setup fewer resting on =>
    rcases on with ⟨-, eq, -⟩ | ⟨surveyed, -⟩
    · rw [eq] at mem
      exact .inl mem
    · exact own surveyed p mem
  | @refreshed setup selected _ _ here unread carried resting undeleted =>
    by_cases none_ : setup.candidates = []
    · refine own (fun d open_ => ?_) p mem
      have inside := (unread d).mp open_
      rw [none_] at inside
      exact absurd inside (Nat.not_lt_zero d)
    · rw [carried none_] at mem
      exact .inl (strays_of_displaced mem)

variable {root : PathBuf}

theorem Tidy.roots_step (tidy : h.Tidy candidates) (steady : Steady candidates (event Home.step h m))
    (learns : Learns h.store m.event (t, fx)) (mem : root ∈ h.store.setup.candidates.map Candidate.dir) :
    root ∈ t.setup.candidates.map Candidate.dir := by
  obtain ⟨ev, number, lands⟩ := m
  cases learns with
  | kept op tags dirs setup still => rw [setup]; exact mem
  | moved free before after dirs setup undeleted => rw [setup]; exact mem
  | read d reading awaited dirs setup fewer resting on => rw [setup]; exact mem
  | wrote pending awaited after dirs setup laid settles => rw [setup]; exact mem
  | @refreshed setup selected _ _ here unread carried resting undeleted =>
    rcases tidy.here with eq | empty
    · rw [here, steady.same setup rfl, ← eq]
      exact mem
    · rw [empty] at mem
      cases mem

theorem Tidy.rooted_step (tidy : h.Tidy candidates) (steady : Steady candidates (event Home.step h m))
    (learns : Learns h.store m.event (t, fx)) (phased : t.op.Phased) (sound : t.Sound) :
    ∀ p ∈ t.strays, p.1 ∈ t.setup.candidates.map Candidate.dir := by
  intro p mem
  rcases strays_from learns phased sound p mem with old | ⟨d, inHand, -, root⟩
  · exact tidy.roots_step steady learns (tidy.rooted p old)
  · rw [root]
    exact rootOf_mem (inHand.1.trans_eq sound.dirs.matched)

theorem legal_tail {disk : Disk} {lands : Bool} {tail : List HudEffect} (asked : Tail t tail) (sound : t.Sound)
    (own : ∀ index, t.pendingIndex = some index → (parseIndex (indexBytes index)).access = .writable)
    (legal : Legal disk root) : Legal (executed lands disk tail) root := by
  rcases @tail_cases _ t disk lands tail asked with ⟨eq, -⟩ | ⟨-, place, bytes, pending, written, -⟩
  · rw [eq]
    exact legal
  · rw [written]
    refine legal_update legal (fun index => ?_)
    rcases pending_cases sound pending with ⟨offer, metadata, d, -, rfl, -⟩ | ⟨-, d, made, -, rfl, pends, -⟩
    · exact absurd (congrArg Loc.rel index) (packRel_ne_indexFile offer.sha)
    · exact own made pends

theorem known_tail {disk : Disk} {lands : Bool} {tail : List HudEffect} (asked : Tail t tail) (sound : t.Sound)
    (apart : (t.setup.candidates.map Candidate.dir).Nodup)
    (own : ∀ index, t.pendingIndex = some index → (parseIndex (indexBytes index)).access = .writable)
    (known : ∀ d, d < t.dirs.length → ¬ t.op.Unread d → ((t.dir d).access = .writable ↔ Legal disk (t.rootOf d))) :
    ∀ d, d < t.dirs.length → ¬ t.op.Unread d → ((t.dir d).access = .writable ↔ Legal (executed lands disk tail) (t.rootOf d)) := by
  intro e inside read
  refine ⟨fun access => legal_tail asked sound own ((known e inside read).mp access), fun legal => ?_⟩
  rcases @tail_cases _ t disk lands tail asked with ⟨eq, -⟩ | ⟨-, place, bytes, pending, written, -⟩
  · rw [eq] at legal
    exact (known e inside read).mpr legal
  · rw [written] at legal
    rcases pending_cases sound pending with ⟨offer, metadata, d, -, rfl, -⟩ | ⟨-, d, made, rfl, -, -, inHand, -⟩
    · exact (known e inside read).mpr ((legal_same (update_index (.inl (packRel_ne_indexFile offer.sha)))).mp legal)
    · by_cases eq : t.rootOf d = t.rootOf e
      · rw [← rootOf_injective apart (inHand.1.trans_eq sound.dirs.matched) (inside.trans_eq sound.dirs.matched) eq]
        exact inHand.2
      · exact (known e inside read).mpr ((legal_same (update_index (.inr eq))).mp legal)

theorem Tidy.told (tidy : h.Tidy candidates) (kept : h.Kept whole) (steady : Steady candidates (event Home.step h m))
    (hears : h.Hears m) (prompt : h.Prompt m) (calm : h.Calm m) (learns : Learns h.store m.event (t, fx))
    (moves : ¬ (t.op = h.store.op ∧ t.tags = h.store.tags ∧ t.dirs = h.store.dirs ∧ t.setup = h.store.setup ∧
      ∀ e ∈ fx, e.still = true)) (sound : t.DirsSound) {disk : Disk}
    (known : ∀ d, d < t.dirs.length → ¬ t.op.Unread d → ((t.dir d).access = .writable ↔ Legal h.disk (t.rootOf d)))
    (lists : ∀ root sha, Lists disk root sha ↔ Lists h.disk root sha) (holds : t.Matches whole disk) {at_ : Loc}
    (mem : at_ ∈ h.wrote) (there : h.disk at_ ≠ none) :
    ∃ sha, at_.rel = packRel sha ∧ (Lists disk at_.root sha ∨ ((at_.root, sha) ∈ t.strays ∧ ¬ t.WritesPack) ∨
      .delete at_ ∈ fx) := by
  obtain ⟨sha, rel, listed | stray⟩ := tidy.accounted at_ mem there
  · exact ⟨sha, rel, .inl ((lists _ _).mpr listed)⟩
  have writable : ∀ d, d < t.dirs.length → t.op.Surveyed → t.rootOf d = at_.root → (t.dir d).access = .writable := by
    intro d inside surveyed root
    refine (known d inside (surveyed d)).mpr ?_
    rw [root]
    exact tidy.legal _ stray
  have resting : t.pendingWrite = none → ¬ t.WritesPack := fun free ⟨_, _, _, held⟩ => pending_of_writing held free
  -- what the index of a directory names by now its file lists
  have named : ∀ d, d < t.setup.candidates.length → t.op.Surveyed → t.rootOf d = at_.root →
      Index.Names (t.dir d).index sha → Lists disk at_.root sha := by
    intro d inside surveyed root names
    have inside' : d < t.dirs.length := inside.trans_eq sound.matched.symm
    rw [← root]
    exact ((holds d inside' (surveyed d) (writable d inside' surveyed root)).1 sha).mpr names
  have gone : ∀ d, t.rootOf d = at_.root → .delete (t.loc d (packRel sha)) ∈ fx → .delete at_ ∈ fx := by
    intro d root taken
    have place : t.loc d (packRel sha) = at_ := by
      unfold HudStore.loc
      rw [root, ← rel]
    rw [← place]
    exact taken
  refine ⟨sha, rel, ?_⟩
  obtain ⟨ev, number, lands⟩ := m
  cases learns with
  | kept op tags dirs setup still => exact absurd ⟨op, tags, dirs, setup, still⟩ moves
  | moved free before after dirs setup undeleted =>
    rw [strays_nil kept.phased before free] at stray
    cases stray
  | @refreshed setup selected _ _ here unread carried free undeleted =>
    have displaced := strays_of_carried (calm rfl) stray
    by_cases none_ : setup.candidates = []
    · have old := tidy.rooted _ stray
      have empty : h.store.setup.candidates = [] := by
        rcases tidy.here with eq | empty
        · exact eq.trans ((steady.same setup rfl).symm.trans none_)
        · exact empty
      rw [empty] at old
      cases old
    · exact .inr (.inl ⟨by rw [carried none_]; exact displaced, resting free⟩)
  | read d reading awaited dirs setup fewer free on =>
    rcases on with ⟨-, eq, -⟩ | ⟨surveyed, reclaims⟩
    · exact .inr (.inl ⟨by rw [eq]; exact stray, resting free⟩)
    · have place := tidy.rooted _ stray
      rw [← setup] at place
      obtain ⟨e, found, inside, root⟩ := findIdx_rootOf place
      have inside' : e < t.dirs.length := inside.trans_eq sound.matched.symm
      rcases reclaims at_.root sha e stray found (writable e inside' surveyed root) with names | taken
      · exact .inl (named e inside surveyed root names)
      · exact .inr (.inr (gone e root taken))
  | @wrote tag outcome _ _ pending awaited after dirs setup laid settles =>
    rw [strays_of_pending pending] at stray
    obtain ⟨d, inside, root, unsure | ⟨rfl, packing⟩⟩ := displaced_unsure outcome stray
    · have eq : t.rootOf d = at_.root := (rootOf_same setup d).trans root.symm
      have inside' : d < t.setup.candidates.length := by
        rw [setup]
        exact inside
      rcases settles d sha unsure with names | ⟨held, other⟩ | taken
      · exact .inl (named d inside' after eq names)
      · exact .inr (.inl ⟨by rw [← eq]; exact held, other⟩)
      · exact .inr (.inr (gone d eq taken))
    · have owes : h.Owes ⟨.written tag .refused, number, lands⟩ tag (· = .written .refused) := hears
      obtain ⟨a, asked, number_, due⟩ := kept.answered owes (prompt rfl) awaited
      obtain ⟨sha', rel', listed | none_⟩ := tidy.refused packing a asked number_ due at_ mem there
      · cases packRel_injective (rel.symm.trans rel')
        exact .inl ((lists _ _).mpr listed)
      · cases none_

variable {fx : List HudEffect}

omit [World] in
theorem askedOf_refused {lands : Bool} {n : Nat} {disk : Disk} {a : Asked}
    (mem : a ∈ askedOf n lands disk fx) (due : a.due = .written .refused) : lands = false := by
  induction fx generalizing disk with
  | nil => cases mem
  | cons e rest ih =>
    rcases mem_append.mp mem with own | later
    · obtain ⟨answer, held, rfl⟩ := mem_map.mp own
      cases lands with
      | false => rfl
      | true =>
        have eq := Option.mem_toList.mp held
        have refused : answer.2 = .written .refused := due
        cases e <;> cases eq <;> exact nomatch refused
    · exact ih later

theorem lists_landed {t : HudStore} {disk : Disk} {d : Nat} {index : Index} {sha : Sha}
    (reads : ReadsBack index) (holds : ∀ sha, Lists disk (t.rootOf d) sha ↔ Index.Names (t.dir d).index sha)
    (keeps : ∀ sha, Index.Names (t.dir d).index sha → Index.Names index sha ∨ (t.rootOf d, sha) ∈ t.strays)
    (listed : Lists disk root sha) :
    Lists (Function.update disk (t.loc d indexFile) (some (indexBytes index))) root sha ∨ (root, sha) ∈ t.strays := by
  by_cases eq : t.rootOf d = root
  · subst eq
    rcases keeps sha ((holds sha).mp listed) with named | held
    · exact .inl ⟨_, Function.update_self _ _ _, (indexBytes_listed reads sha).mpr named⟩
    · exact .inr held
  · exact .inl ((lists_update (.inr eq)).mpr listed)

theorem accounted_run {t : HudStore} {disk : Disk} {lands : Bool} {tail : List HudEffect} {old : List Loc}
    (sound : t.Sound) (asked : Tail t tail) (packs : ∀ at_ ∈ old, at_.rel ≠ indexFile) (legible : ∀ index, t.pendingIndex = some index → ReadsBack index)
    (holds : t.Matches whole disk) (told : ∀ at_ ∈ old, disk at_ ≠ none → ∃ sha, at_.rel = packRel sha ∧
      (Lists disk at_.root sha ∨ ((at_.root, sha) ∈ t.strays ∧ ¬ t.WritesPack))) :
    (∀ at_ ∈ old ++ tail.filterMap (packWritten lands), Accounts (executed lands disk tail) t.strays at_) ∧
      (t.WritesPack → lands = false →
        ∀ at_ ∈ old ++ tail.filterMap (packWritten lands), Accounts (executed lands disk tail) [] at_) := by
  have cases_ := @tail_cases _ t disk lands tail asked
  rcases cases_ with ⟨eq, none_⟩ | ⟨rfl, place, bytes, pending, written, new_⟩
  · rw [eq, none_, append_nil]
    refine ⟨fun at_ mem there => ?_, fun packing _ at_ mem there => ?_⟩
    · obtain ⟨sha, rel, listed | ⟨held, -⟩⟩ := told at_ mem there
      · exact ⟨sha, rel, .inl listed⟩
      · exact ⟨sha, rel, .inr held⟩
    · obtain ⟨sha, rel, listed | ⟨-, other⟩⟩ := told at_ mem there
      · exact ⟨sha, rel, .inl listed⟩
      · exact absurd packing other
  · refine ⟨fun at_ mem there => ?_, fun _ => nofun⟩
    rw [written] at there ⊢
    rw [new_] at mem
    rcases pending_cases sound pending with ⟨offer, metadata, d, held, rfl, stray⟩ | ⟨other, d, index, rfl, rfl, own, inHand, keeps⟩
    · have pack : (t.loc d (packRel offer.sha)).rel ≠ indexFile := packRel_ne_indexFile offer.sha
      by_cases eq : at_ = t.loc d (packRel offer.sha)
      · rw [eq]
        exact ⟨offer.sha, rfl, .inr stray⟩
      · rw [Function.update_of_ne eq] at there
        have before : at_ ∈ old := by
          rcases mem_append.mp mem with before | now
          · exact before
          · exact absurd (mem_singleton.mp now) eq
        obtain ⟨sha, rel, listed | ⟨held, -⟩⟩ := told at_ before there
        · exact ⟨sha, rel, .inl ((lists_update (.inl pack)).mpr listed)⟩
        · exact ⟨sha, rel, .inr held⟩
    · have index_ : (t.loc d indexFile).rel = indexFile := rfl
      rw [if_pos index_, append_nil] at mem
      have apart : at_ ≠ t.loc d indexFile := fun eq => packs at_ mem (congrArg Loc.rel eq)
      rw [Function.update_of_ne apart] at there
      have surveyed := read_of_pending (Option.ne_none_iff_exists'.mpr ⟨_, pending⟩) d
      obtain ⟨sha, rel, listed | ⟨held, -⟩⟩ := told at_ mem there
      · exact ⟨sha, rel, lists_landed (legible index own) (holds d inHand.1 surveyed inHand.2).1 keeps listed⟩
      · exact ⟨sha, rel, .inr held⟩

omit [World] in
theorem packWritten_rel {lands : Bool} {at_ : Loc} (mem : at_ ∈ fx.filterMap (packWritten lands)) :
    at_.rel ≠ indexFile := by
  obtain ⟨e, -, made⟩ := mem_filterMap.mp mem
  cases e with
  | writeFile tag at' bytes =>
    simp only [packWritten] at made
    split at made
    · rename_i may
      cases made
      simp only [Bool.and_eq_true, bne_iff_ne] at may
      exact may.2
    · cases made
  | _ => cases made

theorem Tidy.step (tidy : h.Tidy candidates) (kept : h.Kept whole) (fair : Fair (event Home.step h m))
    (prompt : h.Prompt m) (steady : Steady candidates (event Home.step h m)) (calm : h.Calm m) :
    (h.step m).1.Tidy candidates := by
  have hears : h.Hears m := fair.hears
  have legible : ∀ index, (h.store.turn m.event).1.pendingIndex = some index → ReadsBack index := fair.legible
  obtain ⟨learns, phased⟩ := turn_learns kept.sound kept.phased m.event
  have sound : (h.store.turn m.event).1.Sound := step_sound kept.sound m.event
  obtain ⟨takes, tail, rule, split, taken, asked, ruled⟩ := turn_acts kept.sound m.event
  have told : h.store.turn m.event = ((h.store.turn m.event).1, (h.store.turn m.event).2.1, (h.store.turn m.event).2.2) := rfl
  have still : ∀ e ∈ rule, e.still = true := by
    intro e mem
    rw [ruled e mem]
    rfl
  have here := tidy.here_step steady learns
  have known := tidy.known_step kept steady hears prompt learns sound.dirs
  have rooted := tidy.rooted_step steady learns phased sound
  have packs : ∀ at_ ∈ (h.step m).1.wrote, at_.rel ≠ indexFile := by
    intro at_ mem
    rcases mem_append.mp mem with old | new_
    · exact tidy.packs at_ old
    · exact packWritten_rel new_
  by_cases eq : (h.store.turn m.event).1.op = h.store.op ∧ (h.store.turn m.event).1.tags = h.store.tags ∧
      (h.store.turn m.event).1.dirs = h.store.dirs ∧ (h.store.turn m.event).1.setup = h.store.setup ∧
      ∀ e ∈ (h.store.turn m.event).2.2, e.still = true
  · obtain ⟨op, tags, dirs, setup, quiet⟩ := eq
    have disk : (h.step m).1.disk = h.disk := executed_still quiet
    have wrote : (h.step m).1.wrote = h.wrote := by
      show h.wrote ++ _ = h.wrote
      rw [still_unwritten quiet, append_nil]
    have due : (h.step m).1.asked = h.asked := by
      show h.asked ++ _ = h.asked
      rw [askedOf_quiet (requests_still quiet), append_nil]
    have strays : (h.step m).1.store.strays = h.store.strays := strays_same op setup
    refine ⟨here, ?_, ?_, rooted, packs, ?_, ?_⟩
    · rw [disk]
      exact known
    · rw [disk, strays]
      exact tidy.legal
    · rw [wrote, disk, strays]
      exact tidy.accounted
    · rw [wrote, disk, due]
      show WritesPack (h.store.turn m.event).1 → ∀ a ∈ h.asked, a.number = (h.store.turn m.event).1.tags → _
      unfold WritesPack
      rw [op, tags]
      exact tidy.refused
  · rcases kept.learned hears prompt told learns sound.dirs with quiet | learned
    · exact absurd quiet eq
    · have apart := kept.apart_step hears learns
      obtain ⟨left, requested, due, ran, holds, -⟩ := learned.ran kept.intact apart sound legible
        split taken asked ruled m.lands (h.store.turn m.event).1.tags
      have files : ∀ at_ ∈ h.wrote, executed m.lands h.disk takes at_ ≠ none → ∃ sha, at_.rel = packRel sha ∧
          (Lists (executed m.lands h.disk takes) at_.root sha ∨
            ((at_.root, sha) ∈ (h.store.turn m.event).1.strays ∧ ¬ (h.store.turn m.event).1.WritesPack)) := by
        intro at_ mem there
        obtain ⟨before, kept_⟩ := takes_files taken there
        obtain ⟨sha, rel, listed | held | gone⟩ := tidy.told kept steady hears prompt calm learns eq sound.dirs
          known (takes_lists taken) holds mem before
        · exact ⟨sha, rel, .inl listed⟩
        · exact ⟨sha, rel, .inr held⟩
        · rw [split] at gone
          rcases mem_append.mp gone with front | last
          · rcases mem_append.mp front with own | request
            · exact absurd own kept_
            · unfold Tail at asked
              split at asked
              · cases request
              all_goals first | exact absurd asked not_false | exact nomatch mem_singleton.mp request
          · exact nomatch ruled _ last
      obtain ⟨accounted, refused⟩ := @accounted_run _ whole (h.store.turn m.event).1 (executed m.lands h.disk takes) m.lands
        tail h.wrote sound asked tidy.packs legible holds files
      have wrote : (h.step m).1.wrote = h.wrote ++ tail.filterMap (packWritten m.lands) := by
        show h.wrote ++ (h.store.turn m.event).2.2.filterMap _ = _
        rw [split, filterMap_append, filterMap_append, takes_unwritten taken, still_unwritten still,
          nil_append, append_nil]
      have disk : (h.step m).1.disk = executed m.lands (executed m.lands h.disk takes) tail := left
      have untouched : ∀ root, Legal (executed m.lands h.disk takes) root ↔ Legal h.disk root :=
        fun root => legal_same (executed_index taken root)
      refine ⟨here, ?_, ?_, rooted, packs, ?_, ?_⟩
      · rw [disk]
        refine known_tail asked sound apart steady.own (fun d inside read => ?_)
        rw [untouched]
        exact known d inside read
      · intro p mem
        rw [disk]
        refine legal_tail asked sound steady.own ((untouched _).mpr ?_)
        rcases strays_from learns phased sound p mem with old | ⟨d, inHand, read, root⟩
        · exact tidy.legal p old
        · rw [root]
          exact (known d inHand.1 read).mp inHand.2
      · rw [wrote, disk]
        exact accounted
      · intro packing a mem number outcome
        rw [wrote, disk]
        refine refused packing ?_
        rcases mem_append.mp mem with old | new_
        · -- what was asked for before was asked for under an earlier count
          have pending : (h.store.turn m.event).1.pendingWrite ≠ none := by
            obtain ⟨offer, metadata, d, held⟩ := packing
            exact pending_of_writing held
          rcases learned.moves with ⟨-, free, -⟩ | ⟨-, -, -, -, drawn⟩
          · exact absurd free pending
          · exact absurd ((kept.numbered a old).1.trans_lt drawn) (number ▸ lt_irrefl _)
        · exact askedOf_refused new_ outcome

end

section

omit [World] in
theorem strays_idle {s : HudStore} (idle : s.op = .idle) : s.strays = [] := by
  unfold strays displaced
  rw [idle]

/-- Whenever the store is idle, every pack it wrote is listed by the index of its directory, in
every run in which no refresh displaces a listing that has still to take away what displaced
work left, and no answer is so late that its tag is in use again. -/
theorem no_pack_left_behind (disk : Disk) (candidates : List Candidate) (moves : List Move)
    (fair : ∀ e ∈ history Home.step (start disk) moves, Fair e)
    (steady : ∀ e ∈ history Home.step (start disk) moves, Steady candidates e)
    (calm : ∀ e ∈ history Home.step (start disk) moves, e.before.Prompt e.input ∧ e.before.Calm e.input) :
    ∀ e ∈ history Home.step (start disk) moves, e.after.store.op = .idle →
      ∀ at_ ∈ e.after.wrote, e.after.disk at_ ≠ none → ∃ sha, at_.rel = packRel sha ∧ Lists e.after.disk at_.root sha := by
  have tidy := @history_holds _ _ _ Home.step _ moves
    (fun e => Fair e ∧ Steady candidates e ∧ e.before.Prompt e.input ∧ e.before.Calm e.input)
    (fun h => Kept False h ∧ h.Tidy candidates)
    (fun h m fits both => ⟨(both.1.step fits.1 fits.2.2.1).1, both.2.step both.1 fits.1 fits.2.2.1 fits.2.1 fits.2.2.2⟩)
    ⟨start_kept not_false.elim, start_tidy candidates disk⟩
    (fun e member => ⟨fair e member, steady e member, calm e member⟩)
  intro e member idle at_ wrote there
  obtain ⟨sha, rel, listed | held⟩ := (tidy e member).2.2.accounted at_ wrote there
  · exact ⟨sha, rel, listed⟩
  · rw [strays_idle idle] at held
    cases held

end
end Home

namespace Home
section
open HudStore
attribute [local instance] sampleHome

/-- The index of the package is written as well. -/
def installed : List Move := installing ++ [⟨.written ⟨6⟩ .done, 6, true⟩]

theorem no_pack_left_behind_once : (run Home.step (start nowhere) installed).store.op = .idle ∧
    Lists (run Home.step (start nowhere) installed).disk ["media"] emptySha := by
  have fair : ∀ e ∈ history Home.step (start nowhere) installed, Fair e := by decide +kernel
  have steady : ∀ e ∈ history Home.step (start nowhere) installed, Steady oneDir.candidates e := by decide +kernel
  have calm : ∀ e ∈ history Home.step (start nowhere) installed, e.before.Prompt e.input ∧ e.before.Calm e.input := by
    decide +kernel
  have last := Transducer.history_snoc Home.step (start nowhere) installing ⟨.written ⟨6⟩ .done, 6, true⟩
  have idle : (run Home.step (start nowhere) installed).store.op = .idle := by decide +kernel
  have wrote : (⟨["media"], packRel emptySha⟩ : Loc) ∈ (run Home.step (start nowhere) installed).wrote := by decide +kernel
  have there : (run Home.step (start nowhere) installed).disk ⟨["media"], packRel emptySha⟩ ≠ none := by decide +kernel
  have after : (event Home.step (run Home.step (start nowhere) installing) ⟨.written ⟨6⟩ .done, 6, true⟩).after =
      run Home.step (start nowhere) installed := (Transducer.run_snoc Home.step _ _ _).symm
  obtain ⟨sha, rel, listed⟩ := no_pack_left_behind nowhere oneDir.candidates installed fair steady calm
    (event Home.step (run Home.step (start nowhere) installing) ⟨.written ⟨6⟩ .done, 6, true⟩)
    (by rw [installed, last]; exact mem_append_right _ mem_cons_self) (by rw [after]; exact idle) _
    (by rw [after]; exact wrote) (by rw [after]; exact there)
  rw [after] at listed
  cases packRel_injective rel
  exact ⟨idle, listed⟩

/-- Two refreshes, one after the other, while the pack of an install is being written. -/
def refreshedTwice : List Move :=
  [⟨.refresh oneDir "", 0, true⟩, ⟨.read ⟨1⟩ (.error .missing), 1, true⟩, ⟨.scanned ⟨3⟩ (.ok []), 3, true⟩,
    ⟨.install [] .drop 0, 0, true⟩, ⟨.validated ⟨4⟩ emptySha (.loadable sampleMeta), 4, true⟩,
    ⟨.refresh oneDir "", 0, true⟩, ⟨.refresh oneDir "", 0, true⟩, ⟨.read ⟨7⟩ (.error .missing), 7, true⟩,
    ⟨.scanned ⟨9⟩ (.ok []), 9, true⟩]

theorem displaced_listing_forgets :
    (∀ e ∈ history Home.step (start nowhere) refreshedTwice, Fair e ∧ Steady oneDir.candidates e ∧ e.before.Prompt e.input) ∧
      (run Home.step (start nowhere) refreshedTwice).store.op = .idle ∧
      (⟨["media"], packRel emptySha⟩ : Loc) ∈ (run Home.step (start nowhere) refreshedTwice).wrote ∧
      (run Home.step (start nowhere) refreshedTwice).disk ⟨["media"], packRel emptySha⟩ ≠ none ∧
      (run Home.step (start nowhere) refreshedTwice).disk ⟨["media"], indexFile⟩ = none := by
  decide +kernel

end
end Home
end PlxNative.Hud
