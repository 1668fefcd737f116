import PlxNative.Hud.Disk

/-! The store's picture of its directories and what is on the disk, and how the effects of one
event move the disk while the picture stays true. -/
namespace PlxNative.Hud
open List Function

/-- The pack is in the directory, and is what its name says. -/
def Stored [World] (disk : Disk) (root : PathBuf) (sha : Sha) : Prop :=
  ∃ pack, disk ⟨root, packRel sha⟩ = some pack ∧ Sha.of pack = sha

section
variable {disk : Disk} {at_ : Loc} {content : Option Bytes} {root : PathBuf} {sha : Sha}

theorem update_index (pack : at_.rel ≠ indexFile ∨ at_.root ≠ root) :
    Function.update disk at_ content ⟨root, indexFile⟩ = disk ⟨root, indexFile⟩ := by
  refine update_of_ne (fun eq => ?_) _ _
  subst eq
  rcases pack with other | other <;> exact other rfl

theorem update_pack (other : at_ ≠ ⟨root, packRel sha⟩) :
    Function.update disk at_ content ⟨root, packRel sha⟩ = disk ⟨root, packRel sha⟩ :=
  update_of_ne (Ne.symm other) _ _

theorem index_ne_pack (index : at_.rel = indexFile) : at_ ≠ ⟨root, packRel sha⟩ := by
  rintro rfl
  exact packRel_ne_indexFile sha index

variable [World]

theorem lists_update (pack : at_.rel ≠ indexFile ∨ at_.root ≠ root) :
    Lists (Function.update disk at_ content) root sha ↔ Lists disk root sha := by
  unfold Lists
  rw [update_index pack]

theorem stored_update (other : at_ ≠ ⟨root, packRel sha⟩) (held : Stored disk root sha) :
    Stored (Function.update disk at_ content) root sha := by
  unfold Stored
  rw [update_pack other]
  exact held

theorem stored_write {pack : Bytes} {other : PathBuf} (held : Stored disk root sha) :
    Stored (Function.update disk ⟨other, packRel (Sha.of pack)⟩ (some pack)) root sha := by
  by_cases eq : (⟨other, packRel (Sha.of pack)⟩ : Loc) = ⟨root, packRel sha⟩
  · refine ⟨pack, ?_, packRel_injective (congrArg Loc.rel eq)⟩
    rw [eq]
    exact update_self _ _ _
  · exact stored_update eq held

end

namespace HudStore
variable [World]

/-- What the store has read of its writable directories is what is there; on a disk that was
whole, so are the packs it names. -/
def Matches (s : HudStore) (whole : Prop) (disk : Disk) : Prop :=
  ∀ d, d < s.dirs.length → ¬ s.op.Unread d → (s.dir d).access = .writable →
    (∀ sha, Lists disk (s.rootOf d) sha ↔ Index.Names (s.dir d).index sha) ∧
      (whole → ∀ sha, Index.Names (s.dir d).index sha → Stored disk (s.rootOf d) sha)

/-- What a write came to is on the disk, and the store will be right once it is told. -/
def Landed (s : HudStore) (whole : Prop) (disk : Disk) (outcome : WriteOutcome) : Prop :=
  Matches (s.caughtUp outcome) whole disk ∧
    (outcome = .done → ∀ at_ bytes, s.pendingWrite = some (at_, bytes) → disk at_ = some bytes)

section
variable {s t : HudStore}

omit [World] in
theorem rootOf_same (setup : t.setup = s.setup) (d : Nat) : t.rootOf d = s.rootOf d := by
  unfold rootOf
  rw [setup]

omit [World] in
theorem rootOf_injective (apart : (s.setup.candidates.map Candidate.dir).Nodup) {d e : Nat}
    (inside : d < s.setup.candidates.length) (inside' : e < s.setup.candidates.length) (eq : s.rootOf d = s.rootOf e) :
    d = e := by
  unfold rootOf at eq
  rw [List.getElem?_eq_getElem inside, List.getElem?_eq_getElem inside'] at eq
  have first : d < (s.setup.candidates.map Candidate.dir).length := inside.trans_eq (length_map _).symm
  have second : e < (s.setup.candidates.map Candidate.dir).length := inside'.trans_eq (length_map _).symm
  have roots : (s.setup.candidates.map Candidate.dir)[d] = (s.setup.candidates.map Candidate.dir)[e] := by
    rw [getElem_map, getElem_map]
    exact eq
  exact apart.getElem_inj_iff.mp roots

theorem Matches.same {whole : Prop} {disk : Disk} (h : s.Matches whole disk) (dirs : t.dirs = s.dirs)
    (setup : t.setup = s.setup) (unread : ∀ d, s.op.Unread d → t.op.Unread d) : t.Matches whole disk := by
  intro d inside known access
  rw [dirs] at inside
  rw [dir_same dirs] at access
  have before := h d inside (fun held => known (unread d held)) access
  rw [rootOf_same setup, dir_same dirs]
  exact before

omit [World] in
theorem caughtUp_kept (s : HudStore) (outcome : WriteOutcome) :
    (s.caughtUp outcome).op = s.op ∧ (s.caughtUp outcome).setup = s.setup ∧
      (s.caughtUp outcome).dirs.length = s.dirs.length := by
  unfold caughtUp
  split
  · exact ⟨rfl, rfl, length_set⟩
  · exact ⟨rfl, rfl, length_set⟩
  · exact ⟨rfl, rfl, rfl⟩

omit [World] in
theorem caughtUp_access (s : HudStore) (outcome : WriteOutcome) (e : Nat) :
    ((s.caughtUp outcome).dir e).access = (s.dir e).access := by
  have kept : ∀ d index, ((s.withIndex d index).dir e).access = (s.dir e).access := by
    intro d index
    unfold withIndex
    rw [dir_withDir]
    split
    · rename_i eq
      rw [eq.1]
    · rfl
  unfold caughtUp
  split
  · exact kept _ _
  · exact kept _ _
  · rfl

theorem read_of_pending (pending : s.pendingWrite ≠ none) : s.op.Surveyed := by
  intro d unread
  apply pending
  unfold pendingWrite
  split
  · rename_i held
    rw [held] at unread
    exact absurd unread not_false
  · rename_i held
    rw [held] at unread
    exact absurd unread not_false
  · rename_i held
    rw [held] at unread
    exact absurd unread not_false
  · rfl

omit [World] in
theorem unread_of_reading {d : Nat} (reading : s.readingIndex = some d) : s.op.Unread d := by
  unfold readingIndex at reading
  split at reading
  · rename_i held
    cases reading
    rw [held]
    exact .inr ⟨_, rfl, rfl⟩
  · cases reading

theorem resting_of_unread {d : Nat} (unread : s.op.Unread d) : s.pendingWrite = none := by
  by_contra pending
  exact read_of_pending pending d unread

end

section
variable {whole : Prop} {t : HudStore} {disk : Disk} {lands : Bool}

/-- The disk stays whole after every one of some effects. -/
def Safe (lands : Bool) (disk : Disk) (fx : List HudEffect) : Prop := ∀ k, Intact (executed lands disk (fx.take k))

variable {fx : List HudEffect}

theorem Safe.all (safe : Safe lands disk fx) : Intact (executed lands disk fx) := by
  have last := safe fx.length
  rw [List.take_length] at last
  exact last

theorem safe_nil (intact : Intact disk) : Safe lands disk [] := by
  intro k
  rw [take_nil]
  exact intact

theorem safe_cons {e : HudEffect} {rest : List HudEffect} (intact : Intact disk)
    (safe : Safe lands (execute lands disk e) rest) : Safe lands disk (e :: rest) := by
  intro k
  cases k with
  | zero => exact intact
  | succ k => exact safe k

omit [World] in
theorem executed_append (before after : List HudEffect) :
    executed lands disk (before ++ after) = executed lands (executed lands disk before) after := foldl_append

theorem Safe.append {before after : List HudEffect} (first : Safe lands disk before)
    (then_ : Safe lands (executed lands disk before) after) : Safe lands disk (before ++ after) := by
  induction before generalizing disk with
  | nil => exact then_
  | cons e rest ih => exact safe_cons (first 0) (ih (fun k => first (k + 1)) then_)

omit [World] in
theorem execute_still {e : HudEffect} (still : e.still = true) : execute lands disk e = disk := by
  cases e <;> first | rfl | cases still

omit [World] in
theorem executed_still (still : ∀ e ∈ fx, e.still = true) : executed lands disk fx = disk := by
  induction fx with
  | nil => rfl
  | cons e rest ih =>
    show executed lands (execute lands disk e) rest = disk
    rw [execute_still (still e mem_cons_self)]
    exact ih (fun e mem => still e (mem_cons_of_mem _ mem))

theorem safe_still (intact : Intact disk) (still : ∀ e ∈ fx, e.still = true) : Safe lands disk fx := by
  intro k
  rw [executed_still (fun e mem => still e (mem_of_mem_take mem))]
  exact intact

variable {sha : Sha}

theorem delete_keeps (apart : (t.setup.candidates.map Candidate.dir).Nodup) (dirs : t.DirsSound) (h : t.Matches whole disk)
    (intact : whole → Intact disk) {d : Nat} (inHand : t.InHand d) (known : ¬ t.op.Unread d)
    (unnamed : ¬ Index.Names (t.dir d).index sha) :
    t.Matches whole (Function.update disk (t.loc d (packRel sha)) none) ∧
      (whole → Intact (Function.update disk (t.loc d (packRel sha)) none)) := by
  have pack : (t.loc d (packRel sha)).rel ≠ indexFile := packRel_ne_indexFile sha
  constructor
  · intro e inside open_ access
    obtain ⟨lists, stored⟩ := h e inside open_ access
    refine ⟨fun sha' => (lists_update (.inl pack)).trans (lists sha'), fun was sha' named => ?_⟩
    refine stored_update (fun eq => ?_) (stored was sha' named)
    have root : t.rootOf d = t.rootOf e := congrArg Loc.root eq
    cases rootOf_injective apart (inHand.1.trans_eq dirs.matched) (inside.trans_eq dirs.matched) root
    cases packRel_injective (congrArg Loc.rel eq)
    exact unnamed named
  · intro was root bytes index sha' named
    rw [update_index (.inl pack)] at index
    refine stored_update (fun eq => ?_) (intact was root bytes index sha' named)
    cases packRel_injective (congrArg Loc.rel eq)
    cases (congrArg Loc.root eq : t.rootOf d = root)
    exact unnamed (((h d inHand.1 known inHand.2).1 sha).mp ⟨bytes, index, listed_of_names named⟩)

theorem takes_keep {told : Notice → Prop} (apart : (t.setup.candidates.map Candidate.dir).Nodup) (dirs : t.DirsSound)
    (takes : ∀ e ∈ fx, Takes told t e) (known : Undeleted fx ∨ t.op.Surveyed) (h : t.Matches whole disk)
    (intact : whole → Intact disk) : t.Matches whole (executed lands disk fx) ∧ (whole → Safe lands disk fx) := by
  induction fx generalizing disk with
  | nil => exact ⟨h, fun was => safe_nil (intact was)⟩
  | cons e rest ih =>
    have later : Undeleted rest ∨ t.op.Surveyed := known.imp (fun u at_ mem => u at_ (mem_cons_of_mem _ mem)) id
    have next : t.Matches whole (execute lands disk e) ∧ (whole → Intact (execute lands disk e)) := by
      cases e with
      | delete at_ =>
        obtain ⟨d, sha, rfl, inHand, unnamed⟩ := takes _ mem_cons_self
        rcases known with undeleted | surveyed
        · exact absurd mem_cons_self (undeleted _)
        · exact delete_keeps apart dirs h intact inHand (surveyed d) unnamed
      | catalog inner => exact ⟨h, intact⟩
      | selection id => exact ⟨h, intact⟩
      | notice n => exact ⟨h, intact⟩
      | _ => exact absurd (takes _ mem_cons_self) not_false
    obtain ⟨all, safe⟩ := ih (fun e mem => takes e (mem_cons_of_mem _ mem)) later next.1 next.2
    exact ⟨all, fun was => safe_cons (intact was) (safe was)⟩

variable {index : Index}

omit [World] in
theorem names_insert {id : String} {record : Record}
    (named : Index.Names (index.insert id record) sha) : sha = record.sha ∨ Index.Names index sha := by
  obtain ⟨id', r, held, rfl⟩ := named
  rw [SortedMap.lookup_insert] at held
  split at held
  · cases held
    exact .inl rfl
  · exact .inr ⟨id', r, held, rfl⟩

omit [World] in
theorem names_erase {id : String} (named : Index.Names (index.erase id) sha) : Index.Names index sha := by
  obtain ⟨id', r, held, rfl⟩ := named
  rw [SortedMap.lookup_erase] at held
  split at held
  · cases held
  · exact ⟨id', r, held, rfl⟩

theorem index_lands (apart : (t.setup.candidates.map Candidate.dir).Nodup) (dirs : t.DirsSound) (h : t.Matches whole disk)
    (intact : whole → Intact disk) {d : Nat} (inHand : t.InHand d) (reads : ReadsBack index)
    (stored : whole → ∀ sha, Index.Names index sha → Stored disk (t.rootOf d) sha) :
    (t.withIndex d index).Matches whole (Function.update disk (t.loc d indexFile) (some (indexBytes index))) ∧
      (whole → Intact (Function.update disk (t.loc d indexFile) (some (indexBytes index)))) := by
  have file : (t.loc d indexFile).rel = indexFile := rfl
  have own : ∀ sha, Lists (Function.update disk (t.loc d indexFile) (some (indexBytes index))) (t.rootOf d) sha ↔
      Index.Names index sha := by
    intro sha
    rw [← indexBytes_listed reads]
    constructor
    · rintro ⟨bytes, held, listed⟩
      cases (update_self (t.loc d indexFile) (some (indexBytes index)) disk).symm.trans held
      exact listed
    · exact fun listed => ⟨_, update_self _ _ _, listed⟩
  constructor
  · intro e inside open_ access
    have root : (t.withIndex d index).rootOf e = t.rootOf e := rfl
    have inside' : e < t.dirs.length := inside.trans_eq length_set
    unfold withIndex at access ⊢
    rw [dir_withDir] at access ⊢
    by_cases eq : d = e
    · subst eq
      simp only [inHand.1] at access ⊢
      exact ⟨own, fun was sha named => stored_update (index_ne_pack file) (stored was sha named)⟩
    · simp only [eq] at access ⊢
      obtain ⟨lists, kept⟩ := h e inside' open_ access
      have apart' : (t.loc d indexFile).root ≠ t.rootOf e := fun roots =>
        eq (rootOf_injective apart (inHand.1.trans_eq dirs.matched) (inside'.trans_eq dirs.matched) roots)
      exact ⟨fun sha => (lists_update (.inr apart')).trans (lists sha),
        fun was sha named => stored_update (index_ne_pack file) (kept was sha named)⟩
  · intro was root bytes held sha named
    refine stored_update (index_ne_pack file) ?_
    by_cases eq : t.rootOf d = root
    · subst eq
      exact stored was sha ((own sha).mp ⟨bytes, held, listed_of_names named⟩)
    · rw [update_index (.inr eq)] at held
      exact intact was root bytes held sha named

theorem pack_lands (h : t.Matches whole disk) (intact : whole → Intact disk) (d : Nat) {bytes : Bytes}
    (hashed : Sha.of bytes = sha) : t.Matches whole (Function.update disk (t.loc d (packRel sha)) (some bytes)) ∧
      (whole → Intact (Function.update disk (t.loc d (packRel sha)) (some bytes))) := by
  subst hashed
  have pack : (t.loc d (packRel (Sha.of bytes))).rel ≠ indexFile := packRel_ne_indexFile _
  constructor
  · intro e inside open_ access
    obtain ⟨lists, stored⟩ := h e inside open_ access
    exact ⟨fun sha => (lists_update (.inl pack)).trans (lists sha), fun was sha named => stored_write (stored was sha named)⟩
  · intro was root bytes' held sha named
    rw [update_index (.inl pack)] at held
    exact stored_write (intact was root bytes' held sha named)

omit [World] in
theorem caughtUp_refused (t : HudStore) : t.caughtUp .refused = t := by
  unfold caughtUp
  split
  · rename_i told
    cases told
  · rename_i told
    cases told
  · rfl

theorem write_keeps (apart : (t.setup.candidates.map Candidate.dir).Nodup) (sound : t.Sound) (h : t.Matches whole disk)
    (intact : whole → Intact disk) {at_ : Loc} {bytes : Bytes} (pending : t.pendingWrite = some (at_, bytes))
    (legible : ∀ index, t.pendingIndex = some index → ReadsBack index)
    (laid : ∀ offer metadata d index replaced, t.op.step? = some (.writing offer metadata d (.index index replaced)) →
      whole → Stored disk (t.rootOf d) offer.sha) (tag : Tag) :
    Landed t whole (execute lands disk (.writeFile tag at_ bytes)) (if lands then .done else .refused) ∧
      (whole → Intact (execute lands disk (.writeFile tag at_ bytes))) := by
  cases lands with
  | false =>
    refine ⟨⟨?_, nofun⟩, intact⟩
    show (t.caughtUp .refused).Matches whole disk
    rw [caughtUp_refused]
    exact h
  | true =>
    have there : ∀ at' bytes', t.pendingWrite = some (at', bytes') →
        (Function.update disk at_ (some bytes) : Disk) at' = some bytes' := by
      intro at' bytes' pending'
      cases pending.symm.trans pending'
      exact update_self _ _ _
    suffices landed : (t.caughtUp .done).Matches whole (Function.update disk at_ (some bytes)) ∧
        (whole → Intact (Function.update disk at_ (some bytes))) from ⟨⟨landed.1, fun _ => there⟩, landed.2⟩
    have op := sound.op
    unfold pendingWrite at pending
    unfold caughtUp
    unfold pendingIndex at legible
    split at pending
    · rename_i tag' offer metadata d held
      cases pending
      simp only [held]
      rw [held] at op
      exact pack_lands h intact d op.1.hashed
    · rename_i tag' offer metadata d index replaced held
      cases pending
      simp only [held] at legible ⊢
      rw [held] at op
      obtain ⟨ready, inHand, made, -⟩ := op
      refine index_lands apart sound.dirs h intact inHand (legible index rfl) (fun was sha named => ?_)
      rw [made] at named
      rcases names_insert named with rfl | old
      · exact laid offer metadata d index replaced (by rw [held]; rfl) was
      · exact (h d inHand.1 (by rw [held]; exact not_false) inHand.2).2 was sha old
    · rename_i id ds incomplete r held
      cases pending
      simp only [held] at legible ⊢
      rw [held] at op
      obtain ⟨inHand, made, -⟩ := op.2 r rfl
      refine index_lands apart sound.dirs h intact inHand (legible r.index rfl) (fun was sha named => ?_)
      rw [made] at named
      exact (h r.dir inHand.1 (by rw [held]; exact not_false) inHand.2).2 was sha (names_erase named)
    · cases pending

end
end HudStore
end PlxNative.Hud
