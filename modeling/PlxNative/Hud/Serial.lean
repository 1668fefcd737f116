import PlxNative.Hud.Signed
import PlxNative.Lib.Transducer

/-! The registry's rollback floor: the serial of the index held, along runs of the catalog. -/
namespace PlxNative.Hud.Catalog
open List Reply CacheRecord
open Transducer (event history run)

variable {c : Catalog}

section

@[simp] theorem afterWrite_snapshot (c : Catalog) (fetch : Bool) : (c.afterWrite fetch).1.snapshot = c.snapshot := by
  unfold afterWrite
  split <;> rfl

@[simp] theorem write_snapshot (c : Catalog) (at_ : Nat) (fetch : Bool) : (c.write at_ fetch).1.snapshot = c.snapshot := by
  unfold write
  split
  · rfl
  · exact afterWrite_snapshot c fetch

@[simp] theorem read_index (c : Catalog) (at_ : Nat) : (c.read at_).1.snapshot.index = c.snapshot.index := by
  unfold read
  split
  · rfl
  · split
    · rw [write_snapshot]
    · rfl

theorem heldSerial_same {t : Catalog} (eq : t.snapshot.index = c.snapshot.index) : t.heldSerial = c.heldSerial := by
  unfold heldSerial
  rw [eq]

end

section
variable [Registry]

/-- The caches and the replies a catalog is told were read by the functions that verify them. -/
def Genuine : Event → Prop
  | .read _ (.ok cache) => ∃ bytes keys, decode bytes keys = .ok cache
  | .reply _ (.ok reply) => ∃ status validator body keys, reply = http status validator body keys
  | _ => True

omit [Registry] in
/-- The cache an event makes the catalog take over, if it makes it. -/
def adopted (c : Catalog) : Event → Option CacheRecord
  | .read tag (.ok cache) => match c.phase with
    | .reading _ => if tag = c.generation ∧ stamp c.attemptedAt ≤ stamp cache.attemptedAt then some cache else none
    | _ => none
  | _ => none

omit [Registry] in
/-- A cache that is taken over is no older than the index held. -/
def Abreast (c : Catalog) (ev : Event) : Prop :=
  ∀ cache ∈ c.adopted ev, ∀ held ∈ c.heldSerial, ∃ serial, cache.index.bind Index.serial = some serial ∧ held ≤ serial

def Dated (c : Catalog) : Prop := ∀ index, c.snapshot.index = some index → index.serial.isSome = true

omit [Registry] in
theorem dated_same {t : Catalog} (dated : c.Dated) (eq : t.snapshot.index = c.snapshot.index) : t.Dated := by
  unfold Dated
  rw [eq]
  exact dated

omit [Registry] in
theorem answered_index (c : Catalog) (reply : Reply) : (c.answered reply).1.snapshot.index = c.snapshot.index ∨
    ∃ v, reply.signed = some (.ok v) ∧ (c.answered reply).1.snapshot.index = some v.index ∧
      ∀ held ∈ c.heldSerial, held ≤ v.serial := by
  unfold answered
  split
  · exact .inl rfl
  · split
    · exact .inl rfl
    · exact .inl rfl
    · rename_i v signed
      split
      · rename_i newer
        refine .inr ⟨v, signed, rfl, fun held here => ?_⟩
        rw [here] at newer
        exact of_decide_eq_true newer
      · exact .inl rfl

/-- How the index held may change in one step: not at all, to that of a cache that is taken
over, or to one that a reply brought and that is no older. -/
inductive Moves (c : Catalog) (ev : Event) (after : Option Index) : Prop where
  | kept (none_ : c.adopted ev = none) (same : after = c.snapshot.index)
  | adopted (cache : CacheRecord) (taken : c.adopted ev = some cache) (same : after = cache.index)
  | replied {tag : Nat} {reply : Reply} {v : Verified} (told : ev = .reply tag (.ok reply)) (signed : reply.signed = some (.ok v))
      (newer : ∀ held ∈ c.heldSerial, held ≤ v.serial) (same : after = some v.index)

omit [Registry] in
theorem step_moves (c : Catalog) (ev : Event) : Moves c ev (c.step ev).1.snapshot.index := by
  cases ev with
  | load candidates =>
    refine .kept rfl ?_
    simp only [step]
    split
    · exact read_index _ 0
    · rfl
  | open_ candidates now =>
    refine .kept rfl ?_
    simp only [step]
    split
    · rfl
    · rfl
    · rfl
    · exact read_index _ 0
  | read tag result =>
    cases phase : c.phase with
    | reading at_ =>
      by_cases eq : tag = c.generation
      · cases result with
        | error e =>
          refine .kept rfl ?_
          simp only [step, phase, if_pos eq]
          exact read_index _ _
        | ok cache =>
          by_cases later : stamp c.attemptedAt ≤ stamp cache.attemptedAt
          · refine .adopted cache ?_ ?_
            · simp only [adopted, phase, eq, later, and_self, if_true]
            · simp only [step, phase, if_pos eq, taken, read_index, adopt, if_pos later]
          · refine .kept ?_ ?_
            · simp only [adopted, phase, later, and_false, if_false]
            · simp only [step, phase, if_pos eq, taken, read_index, adopt, if_neg later]
      · refine .kept ?_ ?_
        · cases result with
          | error e => rfl
          | ok cache => simp only [adopted, phase, eq, false_and, if_false]
        · simp only [step, phase, if_neg eq]
    | _ =>
      refine .kept ?_ ?_
      · cases result with
        | error e => rfl
        | ok cache => simp only [adopted, phase]
      · simp only [step, phase]
  | reply tag result =>
    by_cases taken_ : tag = c.generation ∧ c.phase = .fetching
    · cases result with
      | error e =>
        refine .kept rfl ?_
        simp only [step, if_pos taken_, write_snapshot, failedRefresh]
      | ok reply =>
        have moved : (c.step (.reply tag (.ok reply))).1.snapshot.index =
            (c.failedRefresh.answered reply).1.snapshot.index := by
          simp only [step, if_pos taken_, write_snapshot]
        rw [moved]
        rcases answered_index c.failedRefresh reply with eq | ⟨v, signed, eq, newer⟩
        · exact .kept rfl eq
        · exact .replied rfl signed newer eq
    · refine .kept rfl ?_
      simp only [step, if_neg taken_]
  | written tag outcome =>
    refine .kept rfl ?_
    cases phase : c.phase with
    | writing at_ fetch =>
      by_cases eq : tag = c.generation
      · cases outcome <;> simp [step, phase, eq, taken]
      · simp only [step, phase, if_neg eq]
    | _ => simp only [step, phase]

theorem step_abreast {ev : Event} (genuine : Genuine ev) (abreast : c.Abreast ev) {held : Nat} (here : c.heldSerial = some held) :
    ∃ serial, (c.step ev).1.heldSerial = some serial ∧ held ≤ serial := by
  cases step_moves c ev with
  | kept none_ eq => exact ⟨held, (heldSerial_same eq).trans here, le_refl held⟩
  | adopted cache taken eq =>
    obtain ⟨serial, carried, above⟩ := abreast _ taken held here
    refine ⟨serial, ?_, above⟩
    unfold heldSerial
    rw [eq]
    exact carried
  | @replied tag reply v told signed newer eq =>
    subst told
    obtain ⟨status, validator, body, keys, rfl⟩ := genuine
    refine ⟨v.serial, ?_, newer held here⟩
    unfold heldSerial
    rw [eq]
    by_cases ok : status = 200
    · simp only [http, if_pos ok, Option.some.injEq] at signed
      exact verify_serial body keys v signed
    · simp only [http, if_neg ok] at signed
      cases signed

theorem step_dated {ev : Event} (genuine : Genuine ev) (dated : c.Dated) : (c.step ev).1.Dated := by
  cases step_moves c ev with
  | kept none_ eq => exact dated_same dated eq
  | adopted cache taken eq =>
    unfold Dated
    rw [eq]
    cases ev with
    | read tag result =>
      cases result with
      | error e => cases taken
      | ok cache' =>
        obtain ⟨bytes, keys, read⟩ := genuine
        simp only [Catalog.adopted] at taken
        split at taken
        · split at taken
          · cases taken
            exact decode_serial bytes keys cache read
          · cases taken
        · cases taken
    | _ => cases taken
  | @replied tag reply v told signed newer eq =>
    subst told
    obtain ⟨status, validator, body, keys, rfl⟩ := genuine
    intro index held
    rw [eq] at held
    cases held
    by_cases ok : status = 200
    · simp only [http, if_pos ok, Option.some.injEq] at signed
      rw [verify_serial body keys v signed]
      rfl
    · simp only [http, if_neg ok] at signed
      cases signed

end

section
variable [Registry]

theorem run_abreast (c : Catalog) (events : List Event) (genuine : ∀ ev ∈ events, Genuine ev)
    (abreast : ∀ e ∈ history Catalog.step c events, e.before.Abreast e.input) {held : Nat} (here : c.heldSerial = some held) :
    ∃ serial, (run Catalog.step c events).heldSerial = some serial ∧ held ≤ serial := by
  induction events generalizing c held with
  | nil => exact ⟨held, here, le_refl held⟩
  | cons ev rest ih =>
    obtain ⟨next, after, above⟩ := step_abreast (genuine ev mem_cons_self) (abreast _ mem_cons_self) here
    obtain ⟨serial, last, above'⟩ := ih (c.step ev).1 (fun ev mem => genuine ev (mem_cons_of_mem _ mem))
      (fun e mem => abreast e (mem_cons_of_mem _ mem)) after
    exact ⟨serial, last, above.trans above'⟩

theorem run_dated (c : Catalog) (dated : c.Dated) (events : List Event) (genuine : ∀ ev ∈ events, Genuine ev) :
    (run Catalog.step c events).Dated := by
  induction events generalizing c with
  | nil => exact dated
  | cons ev rest ih =>
    exact ih (c.step ev).1 (step_dated (genuine ev mem_cons_self) dated)
      (fun ev mem => genuine ev (mem_cons_of_mem _ mem))

/-- An index that was held at any time has a serial, and at every later time one is held whose
serial is at least that, in every run in which each cache that is taken over is as new as the
index it takes the place of. -/
theorem catalog_never_rolls_back (past later : List Event) (genuine : ∀ ev ∈ past ++ later, Genuine ev)
    (abreast : ∀ e ∈ history Catalog.step Catalog.new (past ++ later), e.before.Abreast e.input) (index : Index)
    (held : (run Catalog.step Catalog.new past).snapshot.index = some index) :
    ∃ newer serial serial', (run Catalog.step Catalog.new (past ++ later)).snapshot.index = some newer ∧
      index.serial = some serial ∧ newer.serial = some serial' ∧ serial ≤ serial' := by
  have dated := run_dated Catalog.new nofun past (fun ev member => genuine ev (mem_append_left _ member))
  obtain ⟨serial, carried⟩ := Option.isSome_iff_exists.mp (dated index held)
  have here : (run Catalog.step Catalog.new past).heldSerial = some serial := by
    unfold heldSerial
    rw [held]
    exact carried
  rw [Transducer.history_append] at abreast
  obtain ⟨serial', last, above⟩ := run_abreast _ later (fun ev member => genuine ev (mem_append_right _ member))
    (fun e member => abreast e (mem_append_right _ member)) here
  rw [Transducer.run_append]
  obtain ⟨newer, held', carried'⟩ := Option.bind_eq_some_iff.mp last
  exact ⟨newer, serial, serial', held', carried, carried', above⟩

end

section

/-- An index with nothing in it, its serial 5. -/
def sampleIndexText : String := "\x7b\"format\":1,\"serial\":5,\"entries\":[],\"revoked\":[]\x7d"

def sampleKeyId : String := "fe812c12f3ab4ce6"

def sampleSig : String :=
  "55e93dfaff8a8a9e2b731d55eb2b8b598c2f24314352d4838fb317939c7c6e1a" ++
    "2d82b6a1be1ecfe1fd70d465a991b05cf99d0d53c75c38bcb756cdfc3e7cc60e"

def samplePublicKey : String := "ea4a6c63e29c520abef5507b132ec5f9954776aebebe7b92421eea691446d22c"

def sampleLine : String := "\x7b\"format\":1,\"key\":\"" ++ sampleKeyId ++ "\",\"sig\":\"" ++ sampleSig ++ "\"\x7d"

def sampleBody : String := sampleLine ++ "\n" ++ sampleIndexText

/-- The cache file of an index that was checked at 100. -/
def checkedFile : String :=
  "\x7b\"protocol\":1,\"checked_at\":100,\"attempted_at\":100,\"etag\":null,\"body\":\"" ++
    "\x7b\\\"format\\\":1,\\\"key\\\":\\\"" ++ sampleKeyId ++ "\\\",\\\"sig\\\":\\\"" ++ sampleSig ++ "\\\"\x7d" ++ "\\n" ++
    "\x7b\\\"format\\\":1,\\\"serial\\\":5,\\\"entries\\\":[],\\\"revoked\\\":[]\x7d" ++ "\"\x7d"

/-- The cache file of a failed first attempt, at 200. -/
def attemptedFile : String := "\x7b\"protocol\":1,\"checked_at\":null,\"attempted_at\":200,\"etag\":null,\"body\":\"\"\x7d"

/-- A registry that reads these files, and knows the one signature. -/
@[reducible] def sampleRegistry : Registry where
  headerOf bytes := if bytes = asBytes sampleLine then some ⟨1, sampleKeyId, sampleSig⟩ else none
  cacheOf bytes :=
    if bytes = asBytes checkedFile then some ⟨1, some 100, some 100, none, sampleBody⟩
    else if bytes = asBytes attemptedFile then some ⟨1, none, some 200, none, ""⟩
    else none
  indexOf bytes := if bytes = asBytes sampleIndexText then some ⟨1, some 5, [], []⟩ else none
  verifies key signature bytes :=
    decide (unhex 32 samplePublicKey = some key ∧ unhex 64 sampleSig = some signature ∧ bytes = asBytes sampleIndexText)

def sampleKeys : List AcceptedKey := [⟨(unhex 8 sampleKeyId).getD [], (unhex 32 samplePublicKey).getD []⟩]

def sampleIndex : Index := ⟨1, some 5, [], []⟩

def checkedRecord : CacheRecord := ⟨some 100, some 100, none, sampleBody, some sampleIndex⟩

def attemptedRecord : CacheRecord := ⟨none, some 200, none, "", none⟩

attribute [local instance] sampleRegistry

theorem checkedFile_decoded : (decode (asBytes checkedFile) sampleKeys).toOption = some checkedRecord := by
  decide +kernel

theorem attemptedFile_decoded : (decode (asBytes attemptedFile) sampleKeys).toOption = some attemptedRecord := by
  decide +kernel

theorem checkedRecord_genuine (tag : Nat) : Genuine (.read tag (.ok checkedRecord)) :=
  ⟨_, _, Checks.ok_of_toOption checkedFile_decoded⟩

theorem attemptedRecord_genuine (tag : Nat) : Genuine (.read tag (.ok attemptedRecord)) :=
  ⟨_, _, Checks.ok_of_toOption attemptedFile_decoded⟩

def sampleCandidates : List Candidate := [⟨["a"], false⟩, ⟨["b"], false⟩]

/-- The same file is read from both. -/
theorem catalog_never_rolls_back_once : ∃ newer serial serial',
    (run Catalog.step Catalog.new ([.load sampleCandidates, .read 1 (.ok checkedRecord)] ++ [.read 1 (.ok checkedRecord)])).snapshot.index
      = some newer ∧ sampleIndex.serial = some serial ∧ newer.serial = some serial' ∧ serial ≤ serial' := by
  refine catalog_never_rolls_back [.load sampleCandidates, .read 1 (.ok checkedRecord)] [.read 1 (.ok checkedRecord)] ?_ ?_
    sampleIndex rfl
  · intro ev member
    simp only [cons_append, nil_append, mem_cons, not_mem_nil, or_false] at member
    rcases member with rfl | rfl | rfl
    · trivial
    · exact checkedRecord_genuine 1
    · exact checkedRecord_genuine 1
  · intro e member cache taken held here
    simp only [cons_append, nil_append, history, mem_cons, not_mem_nil, or_false] at member
    rcases member with rfl | rfl | rfl
    · cases taken
    · cases here
    · cases taken
      cases here
      exact ⟨5, rfl, le_refl 5⟩

/-- A later attempt that has nothing to show takes the place of the index. -/
theorem attempt_lifts_the_index :
    (∀ ev ∈ [.load sampleCandidates, .read 1 (.ok checkedRecord)] ++ [Event.read 1 (.ok attemptedRecord)], Genuine ev) ∧
      (run Catalog.step Catalog.new [.load sampleCandidates, .read 1 (.ok checkedRecord)]).snapshot.index = some sampleIndex ∧
      (run Catalog.step Catalog.new
        ([.load sampleCandidates, .read 1 (.ok checkedRecord)] ++ [.read 1 (.ok attemptedRecord)])).snapshot.index = none := by
  refine ⟨fun ev member => ?_, rfl, rfl⟩
  simp only [cons_append, nil_append, mem_cons, not_mem_nil, or_false] at member
  rcases member with rfl | rfl | rfl
  · trivial
  · exact checkedRecord_genuine 1
  · exact attemptedRecord_genuine 1

end
end PlxNative.Hud.Catalog
