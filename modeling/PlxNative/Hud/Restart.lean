import PlxNative.Hud.Memory

/-! Whether a package is cleared by a restart: the flag a listing or an install sets once, against
the candidates whose indexes name the package when it is shown. -/
namespace PlxNative.Hud
open List SortedMap

def Job.plain : Job → Bool
  | .scan _ | .drop _ _ => true
  | _ => false

namespace HudStore

section

/-- A record of a candidate names the package. -/
def Holds (s : HudStore) (d : Nat) (id : String) (sha : Sha) : Prop := ∃ r, (s.dir d).index.lookup id = some r ∧ r.sha = sha

/-- A candidate that a restart does not clear names it. -/
def Lasting (s : HudStore) (sha : Sha) : Prop := ∃ d id, s.volatile d = false ∧ s.Holds d id sha

/-- One names it by another record than this. -/
def LastsWithout (s : HudStore) (d : Nat) (id : String) (sha : Sha) : Prop :=
  ∃ e other, s.volatile e = false ∧ s.Holds e other sha ∧ ¬(e = d ∧ other = id)

/-- A volatile candidate names a listed package, by a record that is not among those a removal of
the id has still to visit. -/
def Fleeting (s : HudStore) (id : String) (rest : List Nat) (sha : Sha) : Prop :=
  (s.packs.lookup sha).isSome = true ∧ ∃ e other, s.volatile e = true ∧ s.Holds e other sha ∧ ¬(other = id ∧ e ∈ rest)

def TakenLasting (s : HudStore) (sha : Sha) : Prop := ∃ loaded, s.packs.lookup sha = some loaded ∧ loaded.volatile = false

/-- Every entry but the built-in is marked where no candidate that lasts names its package. -/
def Truthful (s : HudStore) : Prop :=
  ∀ e ∈ s.entries, ∀ sha, e.sha = some sha → (e.untilRestart = true ↔ ∀ d, s.referenced d sha = true → s.volatile d = true)

theorem referenced_iff {s : HudStore} {d : Nat} {sha : Sha} : s.referenced d sha = true ↔ ∃ id, s.Holds d id sha := Index.names_iff

end
section
variable [World]

/-- A listed pack reads in the first candidate that names it. -/
def Readable (s : HudStore) (ev : HudEvent) : Prop :=
  ∀ l tag sha d others result, s.op = .listing l → l.flight = some ⟨tag, .pack sha d others, .io⟩ → ev = .read tag result →
    ∃ bytes, result = .ok bytes ∧ Sha.of bytes = sha

omit [World] in
/-- Where the flag that is set, or the one that was, goes with the indexes. -/
structure Steady (s : HudStore) (ev : HudEvent) : Prop where
  /-- A pack that is listed is found in a candidate that lasts, where one names it. -/
  found : ∀ l tag sha asked d others verdict, s.op = .listing l → l.flight = some ⟨tag, .pack sha d others, .validation asked⟩ →
    ev = .validated tag asked verdict → s.volatile d = true → ∀ e ∈ others, s.volatile e = true
  /-- An install that lands in a volatile candidate is of a package that no other names. -/
  installed : ∀ tag offer metadata d index replaced, s.op = .installing ⟨tag, .writing offer metadata d (.index index replaced)⟩ →
    ev = .written tag .done → s.volatile d = true → ¬ s.Lasting offer.sha
  /-- What it takes the place of is not left to volatile candidates alone. -/
  replaced : ∀ tag offer metadata d index old, s.op = .installing ⟨tag, .writing offer metadata d (.index index (some old))⟩ →
    ev = .written tag .done → old ≠ offer.sha → s.volatile d = false → s.Fleeting metadata.id [] old → s.LastsWithout d metadata.id old
  /-- Nor is what a removal takes away, by those it will not visit any more, -/
  removed : ∀ id rest incomplete r, s.op = .removing ⟨id, rest, incomplete, some r⟩ → ev = .written r.tag .done →
    s.volatile r.dir = false → ∀ sha ∈ r.gone, s.Fleeting id rest sha → s.LastsWithout r.dir id sha
  /-- or by the one that refuses. -/
  refused : ∀ id rest incomplete r, s.op = .removing ⟨id, rest, incomplete, some r⟩ → ev = .written r.tag .refused →
    s.volatile r.dir = true → ∀ sha ∈ r.gone, s.TakenLasting sha → s.Lasting sha

end
section
variable {s t : HudStore}

/-- The flags go with the indexes, but for packages whose every record a removal has still to visit. -/
structure RightBut (s : HudStore) (id : String) (rest : List Nat) : Prop where
  marked : ∀ sha loaded, s.packs.lookup sha = some loaded → loaded.volatile = true → ¬ s.Lasting sha
  plain : ∀ sha loaded, s.packs.lookup sha = some loaded → loaded.volatile = false →
    s.Lasting sha ∨ ∀ d other, s.Holds d other sha → other = id ∧ d ∈ rest

def Right (s : HudStore) : Prop := s.RightBut "" []

theorem RightBut.from (right : s.RightBut "" []) (id : String) (rest : List Nat) : s.RightBut id rest :=
  ⟨right.marked, fun sha loaded held plain => (right.plain sha loaded held plain).imp_right fun none_ d other names =>
    nomatch (none_ d other names).2⟩

variable {id : String}

theorem RightBut.done (right : s.RightBut id []) : s.Right :=
  ⟨right.marked, fun sha loaded held plain => (right.plain sha loaded held plain).imp_right fun none_ d other names =>
    nomatch (none_ d other names).2⟩

theorem Holds.same {d : Nat} {sha : Sha} (dirs : t.dirs = s.dirs) (held : s.Holds d id sha) : t.Holds d id sha := by
  unfold Holds
  rw [dir_same dirs]
  exact held

theorem volatile_same (setup : t.setup = s.setup) (d : Nat) : t.volatile d = s.volatile d := by
  unfold volatile
  rw [setup]

theorem Lasting.same {sha : Sha} (dirs : t.dirs = s.dirs) (setup : t.setup = s.setup) (lasting : s.Lasting sha) : t.Lasting sha := by
  obtain ⟨d, id, lasts, held⟩ := lasting
  exact ⟨d, id, (volatile_same setup d).trans lasts, held.same dirs⟩

theorem RightBut.same {rest : List Nat} (right : s.RightBut id rest) (dirs : t.dirs = s.dirs) (packs : t.packs = s.packs)
    (setup : t.setup = s.setup) : t.RightBut id rest := by
  refine ⟨fun sha loaded held marked lasting => ?_, fun sha loaded held plain => ?_⟩
  · rw [packs] at held
    exact right.marked sha loaded held marked (lasting.same dirs.symm setup.symm)
  · rw [packs] at held
    exact (right.plain sha loaded held plain).imp (fun lasting => lasting.same dirs setup) fun only d other names =>
      only d other (names.same dirs.symm)

theorem Right.empty (packs : s.packs = SortedMap.empty) : s.Right := by
  refine ⟨fun sha loaded held => ?_, fun sha loaded held => ?_⟩
  · rw [packs, lookup_empty] at held
    cases held
  · rw [packs, lookup_empty] at held
    cases held

theorem Right.truthful (right : s.Right) : s.Truthful := by
  intro e mem sha shown
  rcases mem_cons.mp mem with rfl | listed
  · cases shown
  · obtain ⟨⟨id, w⟩, held, rfl⟩ := mem_map.mp listed
    cases shown
    have won : s.winners.lookup id = some w := lookup_eq_some.mpr held
    obtain ⟨dir, known, named, entered⟩ := mem_contenders.mp (winner_contends won)
    obtain ⟨-, packs, -⟩ := installed_eq_some.mp entered
    obtain ⟨d, inside, rfl⟩ := getElem_of_mem known
    have here : s.Holds d id w.record.sha := by
      refine ⟨w.record, ?_, rfl⟩
      unfold HudStore.dir
      rw [List.getD_eq_getElem?_getD, List.getElem?_eq_getElem inside, Option.getD_some]
      exact named
    constructor
    · intro marked e names
      obtain ⟨other, held⟩ := referenced_iff.mp names
      exact Bool.not_eq_false _ ▸ fun lasts => right.marked _ _ packs marked ⟨e, other, lasts, held⟩
    · intro all
      cases flag : w.loaded.volatile with
      | true => exact flag
      | false =>
        rcases right.plain _ _ packs flag with ⟨e, other, lasts, names⟩ | none_
        · have fleeting := all e (referenced_iff.mpr ⟨other, names⟩)
          rw [lasts] at fleeting
          cases fleeting
        · exact nomatch (none_ d id here).2

end
section
variable {s : HudStore}

def Noted (found : SortedMap Sha (Nat × List Nat)) (sha : Sha) (d : Nat) : Prop :=
  ∃ first others, found.lookup sha = some (first, others) ∧ d ∈ first :: others

theorem noted_noteCopy (d : Nat) (found : SortedMap Sha (Nat × List Nat)) (record : Record) (sha : Sha) (e : Nat) :
    Noted (noteCopy d found record) sha e ↔ Noted found sha e ∨ record.sha = sha ∧ e = d := by
  unfold noteCopy
  cases held : found.lookup record.sha with
  | none =>
    simp only [Noted, lookup_insert]
    by_cases eq : sha = record.sha
    · subst eq
      simp [held]
    · simp [eq, Ne.symm eq]
  | some known =>
    obtain ⟨first, others⟩ := known
    simp only
    split
    case isTrue last =>
      constructor
      · exact .inl
      · rintro (noted | ⟨rfl, rfl⟩)
        · exact noted
        · exact ⟨first, others, held, List.mem_of_getLast? last⟩
    case isFalse =>
      simp only [Noted, lookup_insert]
      by_cases eq : sha = record.sha
      · subst eq
        simp [held, or_assoc]
      · simp [eq, Ne.symm eq]

theorem noted_foldl (d : Nat) (records : List Record) (found : SortedMap Sha (Nat × List Nat)) (sha : Sha) (e : Nat) :
    Noted (records.foldl (noteCopy d) found) sha e ↔ Noted found sha e ∨ (∃ r ∈ records, r.sha = sha) ∧ e = d := by
  induction records generalizing found with
  | nil => simp
  | cons record records ih =>
    rw [foldl_cons, ih, noted_noteCopy]
    simp only [mem_cons, exists_eq_or_imp]
    tauto

theorem noted_plan (dirs : List (Dir × Nat)) (found : SortedMap Sha (Nat × List Nat)) (sha : Sha) (e : Nat) :
    Noted (dirs.foldl (fun found entry => entry.1.index.values.foldl (noteCopy entry.2) found) found) sha e ↔
      Noted found sha e ∨ ∃ dir, (dir, e) ∈ dirs ∧ ∃ r ∈ dir.index.values, r.sha = sha := by
  induction dirs generalizing found with
  | nil => simp
  | cons entry dirs ih =>
    rw [foldl_cons, ih, noted_foldl]
    simp only [mem_cons]
    constructor
    · rintro ((noted | ⟨named, rfl⟩) | ⟨dir, mem, named⟩)
      · exact .inl noted
      · exact .inr ⟨entry.1, .inl rfl, named⟩
      · exact .inr ⟨dir, .inr mem, named⟩
    · rintro (noted | ⟨dir, rfl | mem, named⟩)
      · exact .inl (.inl noted)
      · exact .inl (.inr ⟨named, rfl⟩)
      · exact .inr ⟨dir, mem, named⟩

/-- A job that has a package's candidates right. -/
def Accurate (s : HudStore) : Job → Prop
  | .pack sha d others => ∀ e, (∃ id, s.Holds e id sha) ↔ e ∈ d :: others
  | _ => True

theorem planPacks_accurate {planned : Sha × Nat × List Nat} (mem : planned ∈ s.planPacks) : s.Accurate (packJob planned) := by
  obtain ⟨sha, d, others⟩ := planned
  have held : (s.dirs.zipIdx.foldl (fun found entry => entry.1.index.values.foldl (noteCopy entry.2) found) SortedMap.empty).lookup sha =
      some (d, others) := lookup_eq_some.mpr mem
  intro e
  have noted := noted_plan s.dirs.zipIdx SortedMap.empty sha e
  have none_ : ¬ Noted SortedMap.empty sha e := fun ⟨_, _, found, _⟩ => nomatch found
  have own : Noted (s.dirs.zipIdx.foldl (fun found entry => entry.1.index.values.foldl (noteCopy entry.2) found) SortedMap.empty) sha e ↔
      e ∈ d :: others := by
    constructor
    · rintro ⟨first, rest, found, inside⟩
      cases held.symm.trans found
      exact inside
    · exact fun inside => ⟨d, others, held, inside⟩
  rw [← own, noted]
  simp only [none_, false_or]
  constructor
  · rintro ⟨id, r, found, eq⟩
    have inside : e < s.dirs.length := by
      by_contra outside
      have blank : s.dir e = Dir.empty := by
        unfold HudStore.dir
        rw [List.getD_eq_getElem?_getD, List.getElem?_eq_none (Nat.le_of_not_lt outside)]
        rfl
      rw [blank] at found
      cases found
    refine ⟨s.dir e, ?_, r, mem_values.mpr ⟨id, found⟩, eq⟩
    rw [List.mem_zipIdx_iff_getElem?]
    unfold HudStore.dir
    rw [List.getD_eq_getElem?_getD, List.getElem?_eq_getElem inside]
    rfl
  · rintro ⟨dir, mem, r, named, eq⟩
    rw [List.mem_zipIdx_iff_getElem?] at mem
    obtain ⟨id, found⟩ := mem_values.mp named
    refine ⟨id, r, ?_, eq⟩
    unfold HudStore.dir
    rw [List.getD_eq_getElem?_getD, show s.dirs[e]? = some dir from mem]
    exact found

end
section
variable {s : HudStore}

theorem plain_accurate {j : Job} (plain : j.plain = true) : s.Accurate j := by
  cases j <;> trivial

/-- Before the plan nothing is listed; after it the jobs are accurate and the flags right. -/
def Surveying (s : HudStore) (l : Listing) : Prop :=
  ∃ f, l.flight = some f ∧
    ((∃ (d : Nat) (ds : List Nat) (rest : List Job), f.job = .index d ∧ l.todo = ds.map .index ++ .plan :: rest ∧ (∀ j ∈ rest, Job.plain j = true) ∧
        s.packs = SortedMap.empty) ∨
      (f.job.later = true ∧ s.Accurate f.job ∧ (∀ j ∈ l.todo, j.later = true ∧ s.Accurate j) ∧ s.Right))

/-- An index that cannot be rewritten is not read either. -/
def Blank (s : HudStore) : Prop := ∀ d, (s.dir d).access = .readOnly → (s.dir d).index = SortedMap.empty

def OpRight (s : HudStore) : Op → Prop
  | .idle | .installing _ => s.Right
  | .listing l => s.Surveying l
  | .removing ⟨id, rest, _, none⟩ => s.RightBut id rest
  | .removing ⟨id, rest, _, some r⟩ => s.RightBut id (r.dir :: rest)

structure Truth (s : HudStore) : Prop where
  op : s.OpRight s.op
  blank : s.Blank

variable {t : HudStore}

theorem Blank.same (blank : s.Blank) (dirs : t.dirs = s.dirs) : t.Blank := by
  intro d
  rw [dir_same dirs]
  exact blank d

theorem Accurate.same {j : Job} (accurate : s.Accurate j) (dirs : t.dirs = s.dirs) : t.Accurate j := by
  cases j with
  | pack sha d others =>
    intro e
    rw [← accurate e]
    exact ⟨fun ⟨id, held⟩ => ⟨id, held.same dirs.symm⟩, fun ⟨id, held⟩ => ⟨id, held.same dirs⟩⟩
  | _ => trivial

theorem OpRight.same {o : Op} (right : s.OpRight o) (dirs : t.dirs = s.dirs) (packs : t.packs = s.packs)
    (setup : t.setup = s.setup) : t.OpRight o := by
  cases o with
  | idle => exact RightBut.same right dirs packs setup
  | installing i => exact RightBut.same right dirs packs setup
  | listing l =>
    obtain ⟨f, flying, ⟨d, ds, rest, job, todo, plain, empty⟩ | ⟨later, own, others, flags⟩⟩ := right
    · exact ⟨f, flying, .inl ⟨d, ds, rest, job, todo, plain, packs.trans empty⟩⟩
    · exact ⟨f, flying, .inr ⟨later, own.same dirs, fun j mem => ⟨(others j mem).1, (others j mem).2.same dirs⟩,
        RightBut.same flags dirs packs setup⟩⟩
  | removing removing =>
    obtain ⟨id, rest, incomplete, flight⟩ := removing
    cases flight <;> exact RightBut.same right dirs packs setup

theorem advance_behind {todo : List Job} (later : ∀ j ∈ todo, j.later = true ∧ s.Accurate j) (right : s.Right)
    (stray : List (PathBuf × Sha)) : (s.advance stray todo).1.OpRight (s.advance stray todo).1.op := by
  cases todo with
  | nil => exact RightBut.same right rfl rfl rfl
  | cons job rest =>
    obtain ⟨own, accurate⟩ := later job mem_cons_self
    have issued : s.advance stray (job :: rest) = s.issue stray job rest := by
      cases job <;> first | rfl | cases own
    rw [issued]
    refine ⟨_, rfl, .inr ⟨own, accurate.same rfl, fun j mem => ?_, RightBut.same right rfl rfl rfl⟩⟩
    obtain ⟨behind, accurate⟩ := later j (mem_cons_of_mem _ mem)
    exact ⟨behind, accurate.same rfl⟩

theorem advance_before {ds : List Nat} {rest : List Job} (plain : ∀ j ∈ rest, Job.plain j = true) (empty : s.packs = SortedMap.empty)
    (stray : List (PathBuf × Sha)) :
    (s.advance stray (ds.map .index ++ .plan :: rest)).1.OpRight (s.advance stray (ds.map .index ++ .plan :: rest)).1.op := by
  have tail : ∀ j ∈ rest, j.later = true ∧ s.Accurate j := fun j mem => by
    have own := plain j mem
    refine ⟨?_, plain_accurate own⟩
    cases j <;> first | rfl | cases own
  cases ds with
  | cons d ds => exact ⟨_, rfl, .inl ⟨d, ds, rest, rfl, rfl, plain, empty⟩⟩
  | nil =>
    have right : s.drawn.Right := Right.empty empty
    simp only [map_nil, nil_append, advance]
    split
    · exact advance_behind (s := s.drawn) (fun j mem => ⟨(tail j mem).1, (tail j mem).2.same rfl⟩) right []
    · rename_i first more planned
      refine ⟨_, rfl, .inr ⟨rfl, ?_, fun j mem => ?_, RightBut.same right rfl rfl rfl⟩⟩
      · exact (planPacks_accurate (planned ▸ mem_cons_self)).same rfl
      · rcases mem_append.mp mem with other | behind
        · obtain ⟨p, known, rfl⟩ := mem_map.mp other
          exact ⟨rfl, (planPacks_accurate (planned ▸ mem_cons_of_mem _ known)).same rfl⟩
        · exact ⟨(tail j behind).1, (tail j behind).2.same rfl⟩

end
section
variable {s : HudStore} [World]

theorem indexRead_blank (result : Except ReadError Bytes) : (indexRead result).access = .readOnly → (indexRead result).index = SortedMap.empty := by
  unfold indexRead
  split
  · unfold parseIndex
    split
    · exact nofun
    · exact fun _ => rfl
  all_goals exact fun _ => rfl

omit [World] in
theorem Blank.withDir (blank : s.Blank) (d : Nat) {dir : Dir} (own : dir.access = .readOnly → dir.index = SortedMap.empty) :
    (s.withDir d dir).Blank := by
  intro e
  rw [dir_withDir]
  split
  · exact own
  · exact blank e

variable {sha : Sha} {d : Nat}

omit [World] in
theorem admitted_right {others : List Nat} (right : s.Right) (accurate : s.Accurate (.pack sha d others))
    (steady : s.volatile d = true → ∀ e ∈ others, s.volatile e = true) (verdict : Verdict) : (s.admitted sha d verdict).Right := by
  have holder : ∃ id, s.Holds d id sha := (accurate d).mpr mem_cons_self
  have own (loaded : Loaded) (flag : loaded.volatile = s.volatile d) : Right { s with packs := s.packs.insert sha loaded } := by
    refine ⟨fun sha' loaded' held marked lasting => ?_, fun sha' loaded' held plain => ?_⟩
    · rw [lookup_insert] at held
      split at held
      case isTrue eq =>
        cases held
        subst eq
        obtain ⟨e, id, lasts, names⟩ := lasting
        rw [flag] at marked
        have among := (accurate e).mp ⟨id, names⟩
        have fleeting : s.volatile e = true := by
          rcases mem_cons.mp among with rfl | other
          · exact marked
          · exact steady marked e other
        exact absurd (lasts.symm.trans fleeting) Bool.false_ne_true
      case isFalse => exact right.marked sha' loaded' held marked lasting
    · rw [lookup_insert] at held
      split at held
      case isTrue eq =>
        cases held
        subst eq
        obtain ⟨id, names⟩ := holder
        exact .inl ⟨d, id, flag ▸ plain, names⟩
      case isFalse => exact right.plain sha' loaded' held plain
  cases verdict with
  | loadable metadata => exact own _ rfl
  | unloadable metadata why => exact own _ rfl
  | invalid => exact right

omit [World] in
theorem admitted_dirs (sha : Sha) (d : Nat) (verdict : Verdict) : (s.admitted sha d verdict).dirs = s.dirs := by
  cases verdict <;> rfl

variable {ev : HudEvent} {stepped : Stepped}

theorem listingAnswer_right {l : Listing} {f : Flight} (surveying : s.Surveying l) (flying : l.flight = some f) (blank : s.Blank)
    (reads : ∀ sha d others result, f = ⟨f.tag, .pack sha d others, .io⟩ → ev = .read f.tag result →
      ∃ bytes, result = .ok bytes ∧ Sha.of bytes = sha)
    (steady : ∀ sha asked d others verdict, f = ⟨f.tag, .pack sha d others, .validation asked⟩ → ev = .validated f.tag asked verdict →
      s.volatile d = true → ∀ e ∈ others, s.volatile e = true)
    (tagged : listingTag ev = some f.tag)
    (answered : s.listingAnswer { l with flight := none } f.job f.stage ev = some stepped) :
    stepped.1.OpRight stepped.1.op ∧ stepped.1.Blank := by
  obtain ⟨tag, job, stage⟩ := f
  obtain ⟨f', eq, ⟨d, ds, rest, before, todo, plain, empty⟩ | ⟨later, own, others, right⟩⟩ := surveying
  · obtain rfl : ⟨tag, job, stage⟩ = f' := Option.some.inj (flying.symm.trans eq)
    subst before
    dsimp only at answered
    unfold listingAnswer at answered
    split at answered
    case h_1 _ result here =>
      cases here
      cases answered
      obtain ⟨dirs, -, -⟩ := advance_same (s.withDir d (indexRead result)) l.stray l.todo
      refine ⟨?_, (blank.withDir d (indexRead_blank result)).same dirs⟩
      simp only [todo]
      exact advance_before (s := s.withDir d (indexRead result)) plain empty l.stray
    all_goals contradiction
  · obtain rfl : ⟨tag, job, stage⟩ = f' := Option.some.inj (flying.symm.trans eq)
    have goes {t : HudStore} (dirs : t.dirs = s.dirs) (flags : t.Right) {todo : List Job} (jobs : ∀ j ∈ todo, j.later = true ∧ s.Accurate j) :
        (t.advance l.stray todo).1.OpRight (t.advance l.stray todo).1.op ∧ (t.advance l.stray todo).1.Blank :=
      ⟨advance_behind (fun j mem => ⟨(jobs j mem).1, (jobs j mem).2.same dirs⟩) flags l.stray,
        blank.same ((advance_same t l.stray todo).1.trans dirs)⟩
    have waits (sha : Sha) (bytes : Bytes) : (s.inspect { l with flight := none } job sha bytes).1.OpRight
        (s.inspect { l with flight := none } job sha bytes).1.op ∧ (s.inspect { l with flight := none } job sha bytes).1.Blank :=
      ⟨⟨_, rfl, .inr ⟨later, own.same rfl, fun j mem => ⟨(others j mem).1, (others j mem).2.same rfl⟩,
        RightBut.same right rfl rfl rfl⟩⟩, blank.same rfl⟩
    dsimp only at answered
    unfold listingAnswer at answered
    split at answered
    case h_1 => cases later
    case h_2 d _ result =>
      cases answered
      refine goes rfl right fun j mem => ?_
      rcases mem_append.mp mem with drop | behind
      · obtain ⟨name, -, rfl⟩ := mem_map.mp drop
        exact ⟨rfl, trivial⟩
      · exact others j behind
    case h_3 sha d more _ result =>
      cases answered
      obtain ⟨bytes, rfl, hashed⟩ := reads sha d more result rfl (by
        cases tagged
        rfl)
      unfold packRead
      simp only [if_pos hashed]
      exact waits sha bytes
    case h_4 sha d more asked _ got verdict =>
      split at answered
      case isTrue named =>
        cases answered
        subst named
        exact goes (admitted_dirs sha d verdict)
          (admitted_right right own (steady sha asked d more verdict rfl (by cases tagged; rfl)) verdict) others
      case isFalse => cases answered
    case h_5 d name given result =>
      cases answered
      unfold dropRead
      split
      · exact waits _ _
      · exact goes (t := s.dropped _) rfl (RightBut.same right rfl rfl rfl) others
      · exact goes rfl right others
      · exact goes rfl right others
    case h_6 d name asked given got verdict =>
      split at answered
      · cases answered
        exact goes (t := s.dropped _) rfl (RightBut.same right rfl rfl rfl) others
      · cases answered
    case h_7 => cases answered

omit [World] in
theorem Blank.withIndex (blank : s.Blank) (inHand : s.InHand d) (index : Index) : (s.withIndex d index).Blank :=
  blank.withDir d fun access => nomatch inHand.2.symm.trans access

omit [World] in
theorem holds_inserted (inHand : s.InHand d) (id : String) (record : Record) {e : Nat} {other : String} :
    (s.withIndex d ((s.dir d).index.insert id record)).Holds e other sha ↔
      if e = d ∧ other = id then record.sha = sha else s.Holds e other sha := by
  unfold Holds withIndex
  rw [dir_withDir]
  by_cases here : d = e
  · subst here
    rw [if_pos ⟨rfl, inHand.1⟩]
    simp only [lookup_insert]
    by_cases eq : other = id
    · simp [eq]
    · simp [eq]
  · rw [if_neg fun both => here both.1, if_neg fun both => here both.1.symm]

omit [World] in
theorem holds_erased (inHand : s.InHand d) (id : String) {e : Nat} {other : String} :
    (s.withIndex d ((s.dir d).index.erase id)).Holds e other sha ↔ ¬(e = d ∧ other = id) ∧ s.Holds e other sha := by
  unfold Holds withIndex
  rw [dir_withDir]
  by_cases here : d = e
  · subst here
    rw [if_pos ⟨rfl, inHand.1⟩]
    simp only [lookup_erase]
    by_cases eq : other = id
    · simp [eq]
    · simp [eq]
  · rw [if_neg fun both => here both.1]
    simp [Ne.symm here]

omit [World] in
theorem landed_right {offer : Offer} {metadata : Meta} (right : s.Right) (inHand : s.InHand d)
    (installed : s.volatile d = true → ¬ s.Lasting offer.sha)
    (replaced : ∀ old, ((s.dir d).index.lookup metadata.id).map Record.sha = some old → old ≠ offer.sha → s.volatile d = false →
      s.Fleeting metadata.id [] old → s.LastsWithout d metadata.id old) :
    (s.landed offer metadata d ((s.dir d).index.insert metadata.id (newRecord offer metadata))).Right := by
  have holds {e : Nat} {other : String} {sha : Sha} :
      (s.landed offer metadata d ((s.dir d).index.insert metadata.id (newRecord offer metadata))).Holds e other sha ↔
        if e = d ∧ other = metadata.id then offer.sha = sha else s.Holds e other sha := by
    exact holds_inserted inHand metadata.id (newRecord offer metadata)
  have earlier {e : Nat} {other : String} {sha : Sha} (apart : sha ≠ offer.sha)
      (names : (s.landed offer metadata d ((s.dir d).index.insert metadata.id (newRecord offer metadata))).Holds e other sha) :
      ¬(e = d ∧ other = metadata.id) ∧ s.Holds e other sha := by
    rw [holds] at names
    split at names
    · exact absurd names.symm apart
    · exact ⟨by assumption, names⟩
  refine ⟨fun sha loaded held marked lasting => ?_, fun sha loaded held plain => ?_⟩
  · obtain ⟨e, other, lasts, names⟩ := lasting
    simp only [landed, lookup_insert] at held
    split at held
    case isTrue eq =>
      cases held
      rw [holds] at names
      split at names
      case isTrue here => exact absurd (lasts.symm.trans (here.1 ▸ marked)) Bool.false_ne_true
      case isFalse => exact installed marked ⟨e, other, lasts, eq ▸ names⟩
    case isFalse apart => exact right.marked sha loaded held marked ⟨e, other, lasts, (earlier apart names).2⟩
  · simp only [landed, lookup_insert] at held
    split at held
    case isTrue eq =>
      cases held
      subst eq
      exact .inl ⟨d, metadata.id, plain, holds.mpr (by rw [if_pos ⟨rfl, rfl⟩])⟩
    case isFalse apart =>
      have kept {e : Nat} {other : String} (lasts : s.volatile e = false) (names : s.Holds e other sha) (elsewhere : ¬(e = d ∧ other = metadata.id)) :
          (s.landed offer metadata d ((s.dir d).index.insert metadata.id (newRecord offer metadata))).Lasting sha :=
        ⟨e, other, lasts, holds.mpr (by rw [if_neg elsewhere]; exact names)⟩
      by_cases named : ∃ e other, (s.landed offer metadata d ((s.dir d).index.insert metadata.id (newRecord offer metadata))).Holds e other sha
      · left
        obtain ⟨e₁, other₁, names₁⟩ := named
        obtain ⟨elsewhere₁, before₁⟩ := earlier apart names₁
        rcases right.plain sha loaded held plain with ⟨e, other, lasts, names⟩ | none_
        · by_cases here : e = d ∧ other = metadata.id
          · obtain ⟨rfl, rfl⟩ := here
            cases flag : s.volatile e₁ with
            | false => exact kept flag before₁ elsewhere₁
            | true =>
              obtain ⟨r, found, eq⟩ := names
              obtain ⟨e₂, other₂, lasts₂, names₂, elsewhere₂⟩ := replaced sha (by rw [found, Option.map_some, eq]) apart lasts
                ⟨by rw [held]; rfl, e₁, other₁, flag, before₁, fun both => nomatch both.2⟩
              exact kept lasts₂ names₂ elsewhere₂
          · exact kept lasts names here
        · exact nomatch (none_ e₁ other₁ before₁).2
      · exact .inr fun e other names => absurd ⟨e, other, names⟩ named

theorem Proceeds.right {step : Step} (right : s.Right) (blank : s.Blank) (sound : s.StepSound step) {tag : Tag}
    (tagged : answerTag ev = some tag)
    (installed : ∀ offer metadata d index replaced, step = .writing offer metadata d (.index index replaced) → ev = .written tag .done →
      s.volatile d = true → ¬ s.Lasting offer.sha)
    (replaced : ∀ offer metadata d index old, step = .writing offer metadata d (.index index (some old)) → ev = .written tag .done →
      old ≠ offer.sha → s.volatile d = false → s.Fleeting metadata.id [] old → s.LastsWithout d metadata.id old)
    (proceeds : s.Proceeds tag step ev stepped) :
    stepped.1.OpRight stepped.1.op ∧ stepped.1.Blank := by
  have resting {t : HudStore} (dirs : t.dirs = s.dirs) (packs : t.packs = s.packs) (setup : t.setup = s.setup)
      (op : t.op = .idle ∨ ∃ i, t.op = .installing i) : t.OpRight t.op ∧ t.Blank := by
    refine ⟨?_, blank.same dirs⟩
    rcases op with idle | ⟨i, held⟩
    · rw [idle]
      exact RightBut.same right dirs packs setup
    · rw [held]
      exact RightBut.same right dirs packs setup
  have ends (n : Notice) : (s.ended n).1.OpRight (s.ended n).1.op ∧ (s.ended n).1.Blank := resting rfl rfl rfl (.inl rfl)
  have validates (offer : Offer) : (s.validate offer).1.OpRight (s.validate offer).1.op ∧ (s.validate offer).1.Blank :=
    resting rfl rfl rfl (.inr ⟨_, rfl⟩)
  have writes (offer : Offer) (metadata : Meta) (d : Nat) : (s.writePack offer metadata d).1.OpRight (s.writePack offer metadata d).1.op ∧
      (s.writePack offer metadata d).1.Blank := by
    obtain ⟨dirs, packs, setup⟩ := writePack_same s offer metadata d
    refine resting dirs packs setup ?_
    unfold writePack
    split
    · exact .inl rfl
    · exact .inr ⟨_, rfl⟩
  cases proceeds with
  | refused free sha reason => exact ends _
  | failed free reason => exact ends _
  | reread given bytes => exact validates _
  | fetched given bytes => exact validates _
  | offered given ok unconfirmed => exact resting rfl rfl rfl (.inr ⟨_, rfl⟩)
  | begun given ok confirmed => exact writes _ _ _
  | packDone given => exact resting rfl rfl rfl (.inr ⟨_, rfl⟩)
  | packRefused given => exact writes _ _ _
  | @indexDone offer metadata d index old given =>
    obtain ⟨ready, inHand, rfl, rfl⟩ := sound
    have eq : given = tag := Option.some.inj tagged
    subst eq
    refine ⟨landed_right right inHand (installed offer metadata d _ _ rfl rfl) fun old found => ?_, ?_⟩
    · exact replaced offer metadata d _ old (by rw [found]) rfl
    · exact (blank.withIndex inHand _).same rfl
  | indexRefused given => exact writes _ _ _

end
section
variable {s : HudStore} {id : String} {rest : List Nat}

theorem finishRemoval_right (right : s.Right) (id : String) (incomplete : Bool) :
    (s.finishRemoval id incomplete).1.Right ∧ (s.finishRemoval id incomplete).1.op = .idle ∧ (s.finishRemoval id incomplete).1.dirs = s.dirs := by
  have pruned : s.pruned.Right := by
    refine ⟨fun sha loaded held marked lasting => ?_, fun sha loaded held plain => ?_⟩
    · simp only [HudStore.pruned, lookup_retain, Option.filter_eq_some_iff] at held
      exact right.marked sha loaded held.1 marked (lasting.same rfl rfl)
    · simp only [HudStore.pruned, lookup_retain, Option.filter_eq_some_iff] at held
      exact (right.plain sha loaded held.1 plain).imp (fun lasting => lasting.same rfl rfl) fun only d other names => only d other (names.same rfl)
  unfold finishRemoval
  simp only
  split
  · exact ⟨RightBut.same pruned rfl rfl rfl, rfl, rfl⟩
  · exact ⟨pruned, rfl, rfl⟩

theorem RightBut.skip {d : Nat} (right : s.RightBut id (d :: rest)) (absent : (s.dir d).index.lookup id = none) : s.RightBut id rest := by
  refine ⟨right.marked, fun sha loaded held plain => (right.plain sha loaded held plain).imp_right fun only e other names => ?_⟩
  obtain ⟨eq, mem⟩ := only e other names
  refine ⟨eq, (mem_cons.mp mem).resolve_left ?_⟩
  rintro rfl
  obtain ⟨r, found, -⟩ := names
  rw [eq, absent] at found
  cases found

variable [World]

theorem advanceRemoval_right (blank : s.Blank) (incomplete : Bool) (right : s.RightBut id rest) :
    (s.advanceRemoval id incomplete rest).1.OpRight (s.advanceRemoval id incomplete rest).1.op ∧ (s.advanceRemoval id incomplete rest).1.Blank := by
  induction rest generalizing incomplete with
  | nil =>
    obtain ⟨flags, idle, dirs⟩ := finishRemoval_right right.done id incomplete
    simp only [advanceRemoval]
    refine ⟨?_, blank.same dirs⟩
    rw [idle]
    exact flags
  | cons d rest ih =>
    simp only [advanceRemoval]
    split
    case isTrue shut => exact ih true (right.skip (by rw [blank d shut]; rfl))
    case isFalse =>
      split
      case h_1 absent => exact ih incomplete (right.skip absent)
      case h_2 record held => exact ⟨RightBut.same right rfl rfl rfl, blank.same rfl⟩

variable {r : Rewrite}

omit [World] in
theorem RightBut.erased (right : s.RightBut id (r.dir :: rest)) (sound : s.RewriteSound id r)
    (removed : s.volatile r.dir = false → ∀ sha ∈ r.gone, s.Fleeting id rest sha → s.LastsWithout r.dir id sha) :
    (s.withIndex r.dir r.index).RightBut id rest := by
  obtain ⟨inHand, index, record, found, gone⟩ := sound
  have holds {e : Nat} {other : String} {sha : Sha} :
      (s.withIndex r.dir r.index).Holds e other sha ↔ ¬(e = r.dir ∧ other = id) ∧ s.Holds e other sha := by
    rw [index]
    exact holds_erased inHand id
  refine ⟨fun sha loaded held marked lasting => ?_, fun sha loaded held plain => ?_⟩
  · obtain ⟨e, other, lasts, names⟩ := lasting
    exact right.marked sha loaded held marked ⟨e, other, lasts, (holds.mp names).2⟩
  · have kept {e : Nat} {other : String} (lasts : s.volatile e = false) (names : s.Holds e other sha) (elsewhere : ¬(e = r.dir ∧ other = id)) :
        (s.withIndex r.dir r.index).Lasting sha := ⟨e, other, lasts, holds.mpr ⟨elsewhere, names⟩⟩
    have ahead {e : Nat} {other : String} (both : other = id ∧ e ∈ r.dir :: rest) (elsewhere : ¬(e = r.dir ∧ other = id)) : other = id ∧ e ∈ rest :=
      ⟨both.1, (mem_cons.mp both.2).resolve_left fun eq => elsewhere ⟨eq, both.1⟩⟩
    rcases right.plain sha loaded held plain with ⟨e, other, lasts, names⟩ | only
    · by_cases here : e = r.dir ∧ other = id
      · obtain ⟨rfl, rfl⟩ := here
        obtain ⟨record', found', eq⟩ := names
        cases found.symm.trans found'
        by_cases without : s.LastsWithout r.dir other sha
        · obtain ⟨e₂, other₂, lasts₂, names₂, elsewhere₂⟩ := without
          exact .inl (kept lasts₂ names₂ elsewhere₂)
        · right
          intro e₁ other₁ names₁
          obtain ⟨elsewhere₁, before₁⟩ := holds.mp names₁
          have fleeting : s.volatile e₁ = true := by
            cases flag : s.volatile e₁ with
            | true => rfl
            | false => exact absurd ⟨e₁, other₁, flag, before₁, elsewhere₁⟩ without
          by_contra behind
          exact without (removed lasts sha (by rw [gone, eq]; exact mem_cons_self)
            ⟨by rw [show s.packs.lookup sha = some loaded from held]; rfl, e₁, other₁, fleeting, before₁, behind⟩)
      · exact .inl (kept lasts names here)
    · right
      intro e other names
      obtain ⟨elsewhere, before⟩ := holds.mp names
      exact ahead (only e other before) elsewhere

omit [World] in
theorem RightBut.refused (right : s.RightBut id (r.dir :: rest)) (sound : s.RewriteSound id r)
    (refused : s.volatile r.dir = true → ∀ sha ∈ r.gone, s.TakenLasting sha → s.Lasting sha) : s.RightBut id rest := by
  obtain ⟨inHand, index, record, found, gone⟩ := sound
  refine ⟨right.marked, fun sha loaded held plain => ?_⟩
  rcases right.plain sha loaded held plain with lasting | only
  · exact .inl lasting
  · by_cases here : s.Holds r.dir id sha
    · left
      cases flag : s.volatile r.dir with
      | false => exact ⟨r.dir, id, flag, here⟩
      | true =>
        obtain ⟨record', found', eq⟩ := here
        cases found.symm.trans found'
        exact refused flag sha (by rw [gone, eq]; exact mem_cons_self) ⟨loaded, held, plain⟩
    · right
      intro e other names
      obtain ⟨eq, mem⟩ := only e other names
      refine ⟨eq, (mem_cons.mp mem).resolve_left ?_⟩
      rintro rfl
      exact here (eq ▸ names)

theorem rewritten_right (blank : s.Blank) {m : Removing} (right : s.RightBut m.id (r.dir :: m.dirs))
    (sound : s.RewriteSound m.id r) (outcome : WriteOutcome)
    (removed : outcome = .done → s.volatile r.dir = false → ∀ sha ∈ r.gone, s.Fleeting m.id m.dirs sha →
      s.LastsWithout r.dir m.id sha)
    (refused : outcome = .refused → s.volatile r.dir = true → ∀ sha ∈ r.gone, s.TakenLasting sha → s.Lasting sha) :
    (s.rewritten m r outcome).1.OpRight (s.rewritten m r outcome).1.op ∧ (s.rewritten m r outcome).1.Blank := by
  cases outcome with
  | done => exact advanceRemoval_right (blank.withIndex sound.1 r.index) m.incomplete (right.erased sound (removed rfl))
  | refused => exact advanceRemoval_right blank true (right.refused sound (refused rfl))

end
section
variable {s : HudStore}

variable [World]

omit [World] in
theorem Truth.same {t : HudStore} (truth : s.Truth) (dirs : t.dirs = s.dirs) (packs : t.packs = s.packs) (setup : t.setup = s.setup)
    (op : t.op = s.op) : t.Truth := by
  refine ⟨?_, truth.blank.same dirs⟩
  rw [op]
  exact truth.op.same dirs packs setup

omit [World] in
theorem beginListing_truth (s : HudStore) (setup : Setup) (selected : String) : (s.beginListing setup selected).1.Truth := by
  have plain : ∀ j ∈ (List.range setup.candidates.length).map Job.scan, Job.plain j = true := by
    intro j mem
    obtain ⟨d, -, rfl⟩ := mem_map.mp mem
    rfl
  refine ⟨advance_before (s := s.forgotten setup selected) plain rfl _, ?_⟩
  have blank : (s.forgotten setup selected).Blank := by
    intro d access
    have empty : (s.forgotten setup selected).dir d = Dir.empty := by
      unfold HudStore.dir forgotten
      simp only [List.getD_eq_getElem?_getD, List.getElem?_replicate]
      split <;> rfl
    rw [empty]
    rfl
  exact blank.same (advance_same _ _ _).1

omit [World] in
theorem Truth.resting {t : HudStore} (right : s.Right) (blank : s.Blank) (dirs : t.dirs = s.dirs) (packs : t.packs = s.packs)
    (setup : t.setup = s.setup) (op : t.op = .idle ∨ ∃ i, t.op = .installing i) : t.Truth := by
  refine ⟨?_, blank.same dirs⟩
  rcases op with idle | ⟨i, held⟩
  · rw [idle]
    exact RightBut.same right dirs packs setup
  · rw [held]
    exact RightBut.same right dirs packs setup

variable {ev : HudEvent}

theorem Reduces.truth {turn : Turn} (reduces : s.Reduces ev turn) (truth : s.Truth) (sound : s.Sound)
    (readable : s.Readable ev) (steady : s.Steady ev) : turn.store.Truth := by
  have own := truth.op
  have blank : Blank { s with op := .idle } := truth.blank
  have sounded : OpSound { s with op := .idle } s.op := sound.op.same rfl rfl
  have resting {t : HudStore} (held : s.op = .idle ∨ ∃ i, s.op = .installing i) (dirs : t.dirs = s.dirs) (packs : t.packs = s.packs)
      (setup : t.setup = s.setup) (op : t.op = .idle ∨ ∃ i, t.op = .installing i) : t.Truth := by
    refine Truth.resting (s := s) ?_ truth.blank dirs packs setup op
    rcases held with held | ⟨i, held⟩
    all_goals
      rw [held] at own
      exact own
  cases reduces with
  | kept => exact truth
  | catalog event => exact truth.same rfl rfl rfl rfl
  | refreshed setup selected => exact beginListing_truth s setup selected
  | selected id => exact truth.same rfl rfl rfl rfl
  | tooLarge idle bytes source now => exact truth
  | begun idle begins => exact resting (.inl idle) rfl rfl rfl (.inr ⟨_, rfl⟩)
  | abandoned held inert => exact resting (.inr ⟨_, held⟩) rfl rfl rfl (.inl rfl)
  | revoked held now => exact resting (.inr ⟨_, held⟩) rfl rfl rfl (.inl rfl)
  | @confirmed tag offer metadata held now =>
    obtain ⟨dirs, packs, setup⟩ := writePack_same { s with op := .idle } { offer with now := some now } metadata 0
    refine resting (.inr ⟨_, held⟩) dirs packs setup ?_
    unfold handled writePack
    split
    · exact .inl rfl
    · exact .inr ⟨_, rfl⟩
  | removed idle id =>
    rw [idle] at own
    obtain ⟨right, blank⟩ := advanceRemoval_right truth.blank false (RightBut.from own id (s.holders id))
    exact ⟨right, blank⟩
  | @listed ev l f stepped held flying tagged answered =>
    rw [held] at own
    have surveying : Surveying { s with op := .idle } l := OpRight.same (o := .listing l) own rfl rfl rfl
    obtain ⟨right, blank⟩ := listingAnswer_right surveying flying blank
      (fun sha d others result eq told => readable l f.tag sha d others result held (eq ▸ flying) told)
      (fun sha asked d others verdict eq told => steady.found l f.tag sha asked d others verdict held (eq ▸ flying) told)
      tagged answered
    exact ⟨right, blank⟩
  | @installed ev tag step stepped held tagged proceeds =>
    rw [held] at own sounded
    have flags : Right { s with op := .idle } := RightBut.same own rfl rfl rfl
    obtain ⟨right, blank⟩ := Proceeds.right flags blank sounded tagged
      (fun offer metadata d index replaced eq told => steady.installed tag offer metadata d index replaced (held.trans (eq ▸ rfl)) told)
      (fun offer metadata d index old eq told => steady.replaced tag offer metadata d index old (held.trans (eq ▸ rfl)) told) proceeds
    exact ⟨right, blank⟩
  | @rewrote id rest incomplete r held outcome =>
    rw [held] at own sounded
    have flags : RightBut { s with op := .idle } id (r.dir :: rest) := RightBut.same own rfl rfl rfl
    obtain ⟨right, blank⟩ := rewritten_right (m := ⟨id, rest, incomplete, none⟩) blank flags (sounded.2 r rfl) outcome
      (fun done => steady.removed id rest incomplete r held (by rw [done]))
      (fun refused => steady.refused id rest incomplete r held (by rw [refused]))
    exact ⟨right, blank⟩

theorem reduce_truth (truth : s.Truth) (sound : s.Sound) (readable : s.Readable ev) (steady : s.Steady ev) :
    (s.reduce ev).store.Truth := (reduce_reduces s ev).truth truth sound readable steady

theorem step_truth (truth : s.Truth) (sound : s.Sound) (readable : s.Readable ev) (steady : s.Steady ev) :
    (s.step ev).store.Truth := by
  have reduced := reduce_truth truth sound readable steady
  unfold step settle
  split
  · exact reduced.same rfl rfl rfl rfl
  · exact reduced

omit [World] in
theorem new_truth : new.Truth := ⟨Right.empty rfl, fun d access => by
  have empty : new.dir d = Dir.empty := rfl
  rw [empty]
  rfl⟩

end
section
variable [World]

/-- The steps of a run in which every listed pack reads where it is first named. -/
def Reads (inputs : List HudEvent) : Prop := Transducer.Guarded turn (fun _ s ev => s.Readable ev) [] new inputs

/-- Where no step leaves a package's flag behind its indexes, a store at rest marks exactly what a
restart clears. -/
theorem until_restart_truthful (inputs : List HudEvent) (reads : Reads inputs)
    (steady : Transducer.Guarded turn (fun _ s ev => s.Steady ev) [] new inputs) (idle : (Transducer.run turn new inputs).op = .idle) :
    (Transducer.run turn new inputs).Truthful := by
  have kept := Transducer.guarded_invariant turn (R := fun _ s => s.Sound ∧ s.Truth)
    (fun _ s ev told held => ⟨step_sound held.1 ev, step_truth held.2 held.1 told.1 told.2⟩) ⟨new_sound, new_truth⟩ (reads.and turn steady)
  have own := kept.2.op
  rw [idle] at own
  exact Right.truthful own

end
section

/-- One package, as both candidates name it. -/
def keptIndex : Index := SortedMap.empty.insert "com.example.hud" (Record.new emptySha .drop 5 "1.0" "1.0")

@[reducible] def keptWorld : World := sampleWorld (indexValue keptIndex) [0x7b, 0x7d]

attribute [local instance] keptWorld

def keptMeta : Meta := ⟨"com.example.hud", "Example", "1.0.0", "1.0", "1.0"⟩

/-- A listing of a candidate that lasts and one that a restart clears. -/
def keptListing : List HudEvent :=
  [.refresh ⟨[⟨["media"], false⟩, ⟨["tmp"], true⟩], 16⟩ "", .read ⟨1⟩ (.ok [0x7b, 0x7d]), .read ⟨2⟩ (.ok [0x7b, 0x7d]), .read ⟨4⟩ (.ok []),
    .validated ⟨5⟩ emptySha (.loadable keptMeta), .scanned ⟨6⟩ (.ok []), .scanned ⟨7⟩ (.ok [])]

def refusedRemoval : List HudEvent := keptListing ++ [.removed "com.example.hud", .written ⟨8⟩ .done, .written ⟨9⟩ .refused]

def readsNow (s : HudStore) (ev : HudEvent) : Bool :=
  match s.op, ev with
  | .listing ⟨_, some ⟨_, .pack sha _ _, .io⟩, _⟩, .read _ (.ok bytes) => decide (Sha.of bytes = sha)
  | .listing ⟨_, some ⟨_, .pack _ _ _, .io⟩, _⟩, .read _ (.error _) => false
  | _, _ => true

theorem readable_now {s : HudStore} {ev : HudEvent} (now : s.readsNow ev = true) : s.Readable ev := by
  rintro ⟨todo, flight, stray⟩ tag sha d others result listing flying rfl
  simp only at flying
  subst flying
  unfold readsNow at now
  rw [listing] at now
  cases result with
  | ok bytes => exact ⟨bytes, rfl, of_decide_eq_true now⟩
  | error why => cases now

/-- Nothing is written, and what is listed is found where it lasts. -/
def steadyNow (s : HudStore) : Bool :=
  match s.op with
  | .idle => true
  | .listing ⟨_, some ⟨_, .pack _ d _, .validation _⟩, _⟩ => !s.volatile d
  | .listing _ => true
  | .installing _ | .removing _ => false

theorem steady_now {s : HudStore} (now : s.steadyNow = true) (ev : HudEvent) : s.Steady ev := by
  unfold steadyNow at now
  refine ⟨?_, fun tag offer metadata d index replaced held => ?_, fun tag offer metadata d index old held => ?_,
    fun id rest incomplete r held => ?_, fun id rest incomplete r held => ?_⟩
  · rintro ⟨todo, flight, stray⟩ tag sha asked d others verdict listing flying - fleeting
    simp only at flying
    subst flying
    rw [listing] at now
    simp only [fleeting] at now
    cases now
  all_goals
    rw [held] at now
    cases now

/-- A package that only the volatile candidate still names is not marked. -/
theorem refused_removal_keeps_the_flag :
    ¬ ∀ inputs, Reads inputs → (Transducer.run turn new inputs).op = .idle → (Transducer.run turn new inputs).Truthful := by
  intro all
  have reads : Reads refusedRemoval := by
    refine ⟨?_, ?_, ?_, ?_, ?_, ?_, ?_, ?_, ?_, ?_, trivial⟩
    all_goals exact readable_now (by decide +kernel)
  have truthful := all refusedRemoval reads (by decide +kernel)
  have shown : ∃ e ∈ (Transducer.run turn new refusedRemoval).entries, e.sha = some emptySha ∧ e.untilRestart = false := by decide +kernel
  obtain ⟨e, member, sha, plain⟩ := shown
  have marked := (truthful e member emptySha sha).mpr fun d names => by
    have inside : d < 2 := by
      by_contra outside
      have size : (Transducer.run turn new refusedRemoval).dirs.length = 2 := by decide +kernel
      have blank : (Transducer.run turn new refusedRemoval).dir d = Dir.empty := by
        unfold HudStore.dir
        rw [List.getD_eq_getElem?_getD, List.getElem?_eq_none (by omega)]
        rfl
      unfold referenced at names
      rw [blank] at names
      cases names
    have each : ∀ d < 2, (Transducer.run turn new refusedRemoval).referenced d emptySha = true →
        (Transducer.run turn new refusedRemoval).volatile d = true := by decide +kernel
    exact each d inside names
  rw [plain] at marked
  cases marked

theorem until_restart_truthful_listed :
    (∃ e ∈ (Transducer.run turn new keptListing).entries, e.sha = some emptySha) ∧ (Transducer.run turn new keptListing).Truthful := by
  refine ⟨by decide +kernel, until_restart_truthful keptListing ?_ ?_ (by decide +kernel)⟩
  · refine ⟨?_, ?_, ?_, ?_, ?_, ?_, ?_, trivial⟩
    all_goals exact readable_now (by decide +kernel)
  · refine ⟨?_, ?_, ?_, ?_, ?_, ?_, ?_, trivial⟩
    all_goals exact steady_now (by decide +kernel) _

end
end HudStore
end PlxNative.Hud
