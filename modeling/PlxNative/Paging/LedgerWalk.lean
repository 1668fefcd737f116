import PlxNative.Paging.Fill
import PlxNative.Paging.Ledger

/-! The walk over a ledger against a listing that holds still: what a pass has read it has
recorded, and the walk is done only after a pass over the whole listing. -/
namespace PlxNative.Paging
open List Bool LedgerKey
open ViewState (ServerId)

section
variable {keys : List LedgerKey}

@[simp] theorem LedgerKey.toText_new (key : String) : (LedgerKey.new key).toText = key := by
  unfold LedgerKey.new
  split
  · split
    · assumption
    · rfl
  · rfl

theorem LedgerKey.new_injective {a b : String} (eq : LedgerKey.new a = LedgerKey.new b) : a = b := by
  have texts := congrArg toText eq
  rwa [toText_new, toText_new] at texts

theorem foldl_zipIdx_eq_some (key : LedgerKey) {found : Option Nat} {from_ i : Nat}
    (held : (keys.zipIdx from_).foldl (fun found entry => if entry.1 = key then some entry.2 else found) found =
      some i) :
    found = some i ∨ from_ ≤ i ∧ keys[i - from_]? = some key := by
  induction keys generalizing found from_ with
  | nil => exact .inl held
  | cons first rest ih =>
    rcases ih held with here | ⟨above, there⟩
    · dsimp only at here
      split at here
      · rename_i eq
        cases here
        refine .inr ⟨Nat.le_refl _, ?_⟩
        rw [Nat.sub_self, eq]
        rfl
      · exact .inl here
    · refine .inr ⟨Nat.le_of_succ_le above, ?_⟩
      have next : i - from_ = i - (from_ + 1) + 1 := by omega
      rw [next, List.getElem?_cons_succ]
      exact there

variable {key : LedgerKey}

theorem positionOf_eq_some {i : Nat} (found : positionOf keys key = some i) : keys[i]? = some key := by
  rcases foldl_zipIdx_eq_some key found with nothing | ⟨-, there⟩
  · cases nothing
  · exact there

theorem positionOf_lt {i : Nat} (found : positionOf keys key = some i) : i < keys.length :=
  (List.getElem?_eq_some_iff.mp (positionOf_eq_some found)).1

theorem le_length_filter {gone : List LedgerKey} {lo : Nat} (nodup : keys.Nodup) (inside : lo ≤ keys.length)
    (after : ∀ key ∈ gone, key ∈ keys.drop lo) : lo ≤ (keys.filter (· ∉ gone)).length := by
  have parts : keys.take lo ++ keys.drop lo = keys := take_append_drop lo keys
  have apart : ∀ key ∈ keys.take lo, key ∉ keys.drop lo := by
    rw [← parts] at nodup
    exact disjoint_of_nodup_append nodup
  have kept : (keys.take lo).filter (· ∉ gone) = keys.take lo := by
    refine filter_eq_self.mpr ?_
    intro key mem
    simpa using fun dropped => apart key mem (after key dropped)
  calc lo = (keys.take lo).length := by rw [length_take]; omega
    _ ≤ ((keys.take lo ++ keys.drop lo).filter (· ∉ gone)).length := by
        rw [filter_append, kept, length_append]
        omega
    _ = (keys.filter (· ∉ gone)).length := by rw [parts]

end

section
variable (ledger : Ledger) (rows : List PmsMovie)

theorem placed_length : (placed ledger rows).length ≤ rows.length := by
  refine Nat.le_trans (destutter_sublist _ _).length_le ?_
  rw [(KeyOrder.sortByKey_perm Prod.fst _).length_eq]
  exact length_filterMap_le _ _

theorem placed_ascending : KeyOrder.Ascending Prod.fst (placed ledger rows) := by
  have sorted : (placed ledger rows).Pairwise (fun a b => a.1 ≤ b.1) :=
    (KeyOrder.sortByKey_pairwise Prod.fst _).sublist (destutter_sublist _ _)
  have apart : (placed ledger rows).IsChain (fun a b => a.1 ≠ b.1) := isChain_destutter _ _
  have both : (placed ledger rows).IsChain (fun a b : Row => a.1 < b.1) := by
    rw [isChain_iff_getElem] at apart ⊢
    intro i inside
    have ne := apart i inside
    have le := pairwise_iff_getElem.mp sorted i (i + 1) (by omega) inside (Nat.lt_succ_self i)
    omega
  exact isChain_iff_pairwise.mp both

theorem placed_index : ∀ row ∈ placed ledger rows, ledger.keys[row.1]? = some (.new row.2.rk) := by
  intro row mem
  have found := (KeyOrder.sortByKey_perm Prod.fst _).mem_iff.mp ((destutter_sublist _ _).subset mem)
  obtain ⟨item, -, its⟩ := mem_filterMap.mp found
  obtain ⟨i, position, rfl⟩ := Option.map_eq_some_iff.mp its
  exact positionOf_eq_some position

end

section
variable (sid : ServerId) (items : List Metadata)

/-- Pages of one list, each with its length as the total or with no total. -/
def HonestListing (list : Fetch) : Prop :=
  ∀ call start size, ∃ total : Int, (total = 0 ∨ total = items.length) ∧
    list call start size = some ⟨Usize.toSigned start, total, (items.drop start).take size⟩

/-- Every listed key that is asked for is returned. -/
def HonestMany (many : Many) : Prop :=
  ∀ call keys, ∃ page, many call keys = some page ∧
    ∀ item ∈ items, clean item.ratingKey ∈ keys → ∃ found ∈ page.metadata, clean found.ratingKey = clean item.ratingKey

/-- The listing's length is sent with every page. -/
def SendsTotal (list : Fetch) : Prop :=
  ∀ call start size page, list call start size = some page → page.totalSize = items.length

/-- A total that no pass can reach before the listing's end. -/
def Reaches (total : Nat) : Prop := total = 0 ∨ items.length ≤ total

/-- The key of a listed item the shelf shows, whichever ask reads it. -/
def Due (shown : Int → Prop) (i : Nat) (key : LedgerKey) : Prop :=
  ∃ item card, items[i]? = some item ∧ shelfCard item sid = some card ∧ shown card.sec ∧ key = .new card.rk

/-- Keys as the ledger records them; `may` is true of those it may hold. -/
structure Recorded (may : LedgerKey → Prop) (keys : List LedgerKey) : Prop where
  nodup : keys.Nodup
  texts : ∀ key ∈ keys, .new key.toText = key
  sources : ∀ key ∈ keys, may key

/-- What holds of the ledger all along a walk. -/
structure Sound (shown : Int → Prop) (may : LedgerKey → Prop) (ledger : Ledger) : Prop where
  recorded : Recorded may ledger.keys
  passed : 1 ≤ ledger.rescans → ∀ i key, i < ledger.next → Due sid items shown i key → key ∈ ledger.keys
  first_pass : ledger.rescans = 0 → ledger.idle = 0
  complete : ledger.done = true → ∀ i key, Due sid items shown i key → key ∈ ledger.keys

variable {sid items} {shown : Int → Prop} {may : LedgerKey → Prop}

theorem Recorded.sublist {keys kept : List LedgerKey} (recorded : Recorded may keys) (sub : kept.Sublist keys) :
    Recorded may kept :=
  ⟨recorded.nodup.sublist sub, fun key mem => recorded.texts key (sub.subset mem),
    fun key mem => recorded.sources key (sub.subset mem)⟩

theorem Recorded.push {keys : List LedgerKey} {text : String} (recorded : Recorded may keys)
    (fresh : .new text ∉ keys) (allowed : may (.new text)) : Recorded may (keys ++ [.new text]) := by
  refine ⟨?_, ?_, ?_⟩
  · refine nodup_append.mpr ⟨recorded.nodup, nodup_singleton _, ?_⟩
    intro a old b new eq
    rw [mem_singleton.mp new] at eq
    rw [eq] at old
    exact fresh old
  · intro key mem
    rcases mem_append.mp mem with old | new
    · exact recorded.texts key old
    · rw [mem_singleton.mp new, LedgerKey.toText_new]
  · exact forall_mem_append.mpr ⟨recorded.sources, forall_mem_singleton.mpr allowed⟩

variable {ledger : Ledger}

theorem Sound.retain {gone : List LedgerKey} (sound : Sound sid items shown may ledger)
    (unlisted : ∀ key ∈ gone, ∀ item ∈ items, key ≠ .new (clean item.ratingKey)) :
    Sound sid items shown may (ledger.retain gone) := by
  have stays : ∀ {i key}, Due sid items shown i key → key ∈ ledger.keys → key ∈ (ledger.retain gone).keys := by
    rintro i key ⟨item, card, its, accepted, -, rfl⟩ mem
    refine mem_filter.mpr ⟨mem, ?_⟩
    have eq := shelfCard_rk accepted
    simpa using fun dropped => unlisted _ dropped item (List.mem_of_getElem? its) (by rw [eq])
  refine ⟨sound.recorded.sublist filter_sublist, ?_, sound.first_pass, ?_⟩
  · intro again i key before due
    exact stays due (sound.passed again i key before due)
  · intro done i key due
    exact stays due (sound.complete done i key due)

variable {hidden : List Int}

theorem fetched_gone {cache : Cache} {read : List Metadata} {key : String}
    (gone : fetched sid hidden cache read key = .gone) :
    cache.lookup key = none ∧ ∀ item ∈ read, clean item.ratingKey ≠ key := by
  unfold fetched at gone
  split at gone
  · cases gone
  · rename_i uncached
    refine ⟨uncached, ?_⟩
    split at gone
    · rename_i unfound
      intro item mem
      simpa using List.find?_eq_none.mp unfound item mem
    · split at gone <;> cases gone

variable {keys : List String}

theorem mem_goneKeys {f : String → Fetched} {key : LedgerKey}
    (mem : key ∈ goneKeys keys (keys.map f)) : ∃ text ∈ keys, key = .new text ∧ f text = .gone := by
  induction keys with
  | nil => cases mem
  | cons text rest ih =>
    simp only [map_cons] at mem
    cases answer : f text with
    | gone =>
      rw [answer] at mem
      rcases mem_cons.mp mem with here | later
      · exact ⟨text, mem_cons_self .., here, answer⟩
      · obtain ⟨other, inside, its⟩ := ih later
        exact ⟨other, mem_cons_of_mem _ inside, its⟩
    | skip =>
      rw [answer] at mem
      obtain ⟨other, inside, its⟩ := ih mem
      exact ⟨other, mem_cons_of_mem _ inside, its⟩
    | card item =>
      rw [answer] at mem
      obtain ⟨other, inside, its⟩ := ih mem
      exact ⟨other, mem_cons_of_mem _ inside, its⟩

variable {many : Many}

theorem readMissing_ok (honest : HonestMany items many) (call : Nat) (keys : List String) (cache : Cache) :
    ∃ read, readMissing keys cache (many call) = .ok read ∧
      ∀ key ∈ keys, cache.lookup key = none → (∀ item ∈ read, clean item.ratingKey ≠ key) →
        ∀ item ∈ items, clean item.ratingKey ≠ key := by
  have asked : ∀ {key}, key ∈ keys → cache.lookup key = none →
      key ∈ keys.filter (fun key => (cache.lookup key).isNone) := by
    intro key mem uncached
    exact mem_filter.mpr ⟨mem, by rw [uncached]; rfl⟩
  unfold readMissing
  dsimp only
  split
  · rename_i empty
    refine ⟨[], rfl, ?_⟩
    intro key mem uncached
    have missing := asked mem uncached
    rw [List.isEmpty_iff.mp empty] at missing
    cases missing
  · obtain ⟨page, answered, returns⟩ := honest call (keys.filter (fun key => (cache.lookup key).isNone))
    refine ⟨page.metadata, by rw [answered]; rfl, ?_⟩
    rintro key mem uncached unfound item listed rfl
    obtain ⟨found, there, its⟩ := returns item listed (asked mem uncached)
    exact unfound found there its

theorem materialise_ok (sid : ServerId) (honest : HonestMany items many) (call : Nat)
    (keys : List String) (hidden : List Int) (cache : Cache) :
    ∃ all, materialise sid keys hidden cache (many call) = .ok all ∧ all.length = keys.length ∧
      ∀ key ∈ goneKeys keys all, ∃ text ∈ keys, key = .new text ∧ ∀ item ∈ items, clean item.ratingKey ≠ text := by
  obtain ⟨read, read_is, returned⟩ := readMissing_ok honest call keys cache
  refine ⟨keys.map (fetched sid hidden cache read), by unfold materialise; rw [read_is]; rfl, length_map .., ?_⟩
  intro key mem
  obtain ⟨text, inside, its, gone⟩ := mem_goneKeys mem
  obtain ⟨uncached, unfound⟩ := fetched_gone gone
  exact ⟨text, inside, its, returned text inside uncached unfound⟩

theorem cards_length (all : List Fetched) : (cards all).length ≤ all.length := length_filterMap_le _ _

/-- An ask in the making; it began with the total `known`. -/
structure Passing (sid : ServerId) (items : List Metadata) (shown : Int → Prop) (may : LedgerKey → Prop) (ask : Ask)
    (known : Nat) (p : Passage) : Prop where
  sound : Sound sid items shown may p.ledger
  room : p.rows.length ≤ maxShelfItems
  first : ask.before = true → p.first ≤ p.ledger.keys.length
  total : p.total = known ∨ Reaches items p.total

variable {ask : Ask} {known : Nat} {many : Many} {p : Passage}

/-- A batch of the ledger's keys, read again from an honest server: what it drops stood in
the batch and is not listed. -/
theorem Sound.batch {lo hi : Nat} (sound : Sound sid items shown may ledger)
    (honest : HonestMany items many) (below : lo ≤ hi) (inside : hi ≤ ledger.keys.length) (hidden : List Int)
    (cache : Cache) (call : Nat) :
    ∃ keys all, slice ledger.keys lo hi = .ok keys ∧ materialise sid keys hidden cache (many call) = .ok all ∧
      (cards all).length ≤ hi - lo ∧ (∀ key ∈ goneKeys keys all, key ∈ ledger.keys.drop lo) ∧
      Sound sid items shown may (ledger.retain (goneKeys keys all)) := by
  obtain ⟨all, read, length, gone⟩ := materialise_ok sid honest call
    (((ledger.keys.take hi).drop lo).map toText) hidden cache
  have size : (((ledger.keys.take hi).drop lo).map toText).length ≤ hi - lo := by
    rw [length_map, length_drop, length_take]
    omega
  refine ⟨_, all, if_pos ⟨below, inside⟩, read, ?_, ?_, sound.retain ?_⟩
  · have few := cards_length all
    omega
  · intro key mem
    obtain ⟨text, there, rfl, -⟩ := gone key mem
    obtain ⟨held, sliced, rfl⟩ := mem_map.mp there
    have dropped : held ∈ ledger.keys.drop lo := ((take_sublist hi ledger.keys).drop lo).subset sliced
    rw [sound.recorded.texts held (mem_of_mem_drop dropped)]
    exact dropped
  · intro key mem item listed eq
    obtain ⟨text, -, rfl, unlisted⟩ := gone key mem
    exact unlisted item listed (new_injective eq).symm

variable {all : List Fetched}

theorem readBack_eq
    (sliced : slice p.ledger.keys (p.first - (maxShelfItems - p.rows.length)) p.first = .ok keys)
    (read : materialise sid keys ask.hidden p.cache (many p.requests) = .ok all) :
    readBack sid ask.hidden many p = .ok
      { p with
        rows := cards all ++ p.rows
        requests := p.requests + 1
        first := p.first - (maxShelfItems - p.rows.length)
        ledger := p.ledger.retain (goneKeys keys all) } := by
  unfold readBack
  dsimp only
  rw [sliced]
  change (materialise sid keys ask.hidden p.cache (many p.requests)).bind _ = _
  rw [read]
  rfl

theorem readAhead_eq (sliced : slice p.ledger.keys p.cursor
      (min (p.cursor + maxShelfItems - p.rows.length) p.ledger.keys.length) = .ok keys)
    (read : materialise sid keys ask.hidden p.cache (many p.requests) = .ok all) :
    readAhead sid ask.hidden many p = .ok
      { p with
        rows := p.rows ++ cards all
        requests := p.requests + 1
        cursor := p.cursor + keptCount all
        ledger := p.ledger.retain (goneKeys keys all) } := by
  unfold readAhead
  dsimp only
  rw [sliced]
  change (materialise sid keys ask.hidden p.cache (many p.requests)).bind _ = _
  rw [read]
  rfl

theorem Passing.readBack (honest : HonestMany items many) (passing : Passing sid items shown may ask known p)
    (back : ask.before = true) (space : p.rows.length < maxShelfItems) :
    ∃ q, Paging.readBack sid ask.hidden many p = .ok q ∧ Passing sid items shown may ask known q := by
  have inside := passing.first back
  have below : p.first - (maxShelfItems - p.rows.length) ≤ p.first := Nat.sub_le _ _
  obtain ⟨keys, all, sliced, read, few, dropped, sound⟩ :=
    passing.sound.batch honest below inside ask.hidden p.cache p.requests
  refine ⟨_, readBack_eq sliced read, sound, ?_, ?_, passing.total⟩
  · rw [length_append]
    omega
  · intro _
    exact le_length_filter passing.sound.recorded.nodup (Nat.le_trans below inside) dropped

theorem Passing.readAhead (honest : HonestMany items many) (passing : Passing sid items shown may ask known p)
    (forward : ask.before = false) (space : p.rows.length < maxShelfItems)
    (held : p.cursor < p.ledger.keys.length) :
    ∃ q, Paging.readAhead sid ask.hidden many p = .ok q ∧ Passing sid items shown may ask known q := by
  have below : p.cursor ≤ min (p.cursor + maxShelfItems - p.rows.length) p.ledger.keys.length := by omega
  obtain ⟨keys, all, sliced, read, few, -, sound⟩ :=
    passing.sound.batch honest below (Nat.min_le_right _ _) ask.hidden p.cache p.requests
  refine ⟨_, readAhead_eq sliced read, sound, ?_, ?_, passing.total⟩
  · rw [length_append]
    omega
  · intro back
    rw [forward] at back
    cases back

/-- The first `took` rows of a page were processed. -/
structure Took (sid : ServerId) (hidden : List Int) (may : LedgerKey → Prop) (page : List Metadata) (took : Nat)
    (p q : Passage) : Prop where
  fits : took ≤ page.length
  recorded : Recorded may p.ledger.keys → Recorded may q.ledger.keys
  grows : p.ledger.keys ⊆ q.ledger.keys
  covers : ∀ (i : Nat) item shown, i < took → page[i]? = some item → card sid item hidden = some shown →
    .new shown.rk ∈ q.ledger.keys
  room : p.rows.length ≤ maxShelfItems → q.rows.length ≤ maxShelfItems
  rescans : q.ledger.rescans = p.ledger.rescans
  idle : q.ledger.idle = p.ledger.idle
  done : q.ledger.done = p.ledger.done
  total : q.total = p.total

theorem Took.nothing {page : List Metadata} : Took sid hidden may page 0 p p := by
  refine ⟨Nat.zero_le _, id, List.Subset.refl _, ?_, id, rfl, rfl, rfl, rfl⟩
  intro i item shown less
  cases less

variable {item : Metadata}

theorem Took.row {rest : List Metadata} {took : Nat} {q r : Passage}
    (later : Took sid hidden may rest took r q) (recorded : Recorded may p.ledger.keys → Recorded may r.ledger.keys)
    (grows : p.ledger.keys ⊆ r.ledger.keys)
    (there : ∀ shown, card sid item hidden = some shown → .new shown.rk ∈ r.ledger.keys)
    (room : p.rows.length ≤ maxShelfItems → r.rows.length ≤ maxShelfItems)
    (rescans : r.ledger.rescans = p.ledger.rescans) (idle : r.ledger.idle = p.ledger.idle)
    (done : r.ledger.done = p.ledger.done) (total : r.total = p.total) :
    Took sid hidden may (item :: rest) (took + 1) p q := by
  refine ⟨Nat.succ_le_succ later.fits, later.recorded ∘ recorded, List.Subset.trans grows later.grows, ?_,
    later.room ∘ room, later.rescans.trans rescans, later.idle.trans idle, later.done.trans done,
    later.total.trans total⟩
  intro i other shown less its accepted
  cases i with
  | zero =>
    cases its
    exact later.grows (there shown accepted)
  | succ i => exact later.covers i other shown (by omega) its accepted

theorem card_rk {shown : PmsMovie} (accepted : card sid item hidden = some shown) :
    shown.rk = clean item.ratingKey := by
  exact shelfCard_rk (Option.filter_eq_some_iff.mp accepted).1

theorem listed_took (page : List Metadata) (processed : Nat)
    (allowed : ∀ item ∈ page, ∀ shown, card sid item hidden = some shown → may (.new shown.rk)) :
    ∃ q took, listed sid hidden page p processed = (q, processed + took) ∧ Took sid hidden may page took p q := by
  induction page generalizing p processed with
  | nil => exact ⟨p, 0, rfl, .nothing⟩
  | cons item rest ih =>
    have rest_allowed : ∀ other ∈ rest, ∀ shown, card sid other hidden = some shown → may (.new shown.rk) :=
      fun other mem => allowed other (mem_cons_of_mem _ mem)
    unfold listed
    split
    · exact ⟨p, 0, rfl, .nothing⟩
    · split
      · rename_i known
        obtain ⟨q, took, result, later⟩ := ih (p := p) (processed + 1) rest_allowed
        refine ⟨q, took + 1, by rw [result]; congr 1; omega, later.row id (List.Subset.refl _) ?_ id rfl rfl rfl rfl⟩
        intro shown accepted
        rw [card_rk accepted]
        exact known
      · rename_i fresh
        split
        · rename_i hidden_one
          obtain ⟨q, took, result, later⟩ := ih (p := { p with ledger := { p.ledger with
            filtered := if p.ledger.rescans = 0 then p.ledger.filtered + 1 else p.ledger.filtered } })
            (processed + 1) rest_allowed
          refine ⟨q, took + 1, by dsimp only; rw [result]; congr 1; omega,
            later.row id (List.Subset.refl _) ?_ id rfl rfl rfl rfl⟩
          intro shown accepted
          rw [hidden_one] at accepted
          cases accepted
        · rename_i shown accepted
          have pushed : p.ledger.push (.new (clean item.ratingKey)) =
              { p.ledger with keys := p.ledger.keys ++ [.new (clean item.ratingKey)] } := if_neg fresh
          rw [pushed]
          obtain ⟨q, took, result, later⟩ := ih (p := { p with
            rows := p.rows ++ [shown]
            cursor := (p.ledger.keys ++ [LedgerKey.new (clean item.ratingKey)]).length
            ledger := { p.ledger with
              keys := p.ledger.keys ++ [.new (clean item.ratingKey)]
              added := p.ledger.added + 1 } }) (processed + 1) rest_allowed
          have its_may := allowed item (mem_cons_self ..) shown accepted
          rw [card_rk accepted] at its_may
          refine ⟨q, took + 1, by dsimp only; rw [result]; congr 1; omega, later.row ?_ ?_ ?_ ?_ rfl rfl rfl rfl⟩
          · intro recorded
            exact recorded.push fresh its_may
          · exact subset_append_left _ _
          · intro other again
            rw [card_rk again]
            exact mem_append_right _ (mem_singleton_self _)
          · intro _
            rw [length_append, length_singleton]
            omega

/-- A pass that ends where the listing does leaves the ledger sound: only a pass from the
listing's start can be the last. -/
theorem Sound.endPass (total : Nat) (sound : Sound sid items shown may ledger)
    (whole : items.length ≤ ledger.next) : Sound sid items shown may (Paging.endPass ledger total) := by
  have bound : (if ledger.added = 0 then ledger.idle + 1 else 0) ≤ ledger.idle + 1 := by
    split <;> omega
  unfold Paging.endPass
  generalize (if ledger.added = 0 then ledger.idle + 1 else 0) = idle at bound ⊢
  dsimp only
  split
  · rename_i last
    have again : 1 ≤ ledger.rescans := by
      by_contra none_before
      have first := sound.first_pass (by omega)
      simp only [or_eq_true, and_eq_true, decide_eq_true_eq] at last
      rcases last with ⟨⟨counted, -⟩, -⟩ | twice
      · exact none_before counted
      · unfold idlePasses at twice
        omega
    have all : ∀ i key, Due sid items shown i key → key ∈ ledger.keys := by
      rintro i key due
      have due_item := due
      obtain ⟨item, card, its, -⟩ := due_item
      have inside := (List.getElem?_eq_some_iff.mp its).1
      exact sound.passed again i key (by omega) due
    refine ⟨sound.recorded, sound.passed, ?_, fun _ => all⟩
    intro none_before
    change ledger.rescans = 0 at none_before
    omega
  · refine ⟨sound.recorded, ?_, ?_, sound.complete⟩
    · intro _ i key before
      cases before
    · intro none_before
      change min (ledger.rescans + 1) 255 = 0 at none_before
      omega

variable {list : Fetch}

theorem total_reaches {call start size : Nat} {page : MediaContainer} {total : Nat}
    (honest : HonestListing items list) (its : list call start size = some page)
    (known : Reaches items total ∨ SendsTotal items list) :
    Reaches items (if 0 < page.totalSize then page.totalSize.toNat else total) := by
  obtain ⟨sent, either, answered⟩ := honest call start size
  rw [answered] at its
  cases its
  dsimp only
  split
  · rcases either with zero | length
    · omega
    · right
      omega
  · rcases known with reaches | sends
    · exact reaches
    · have length := sends call start size _ answered
      dsimp only at length
      right
      omega

theorem Passing.readListing (honest : HonestListing items list)
    (passing : Passing sid items shown may ask known p) (forward : ask.before = false)
    (reaches : Reaches items known ∨ SendsTotal items list)
    (allowed : ∀ item ∈ items, ∀ shown, card sid item ask.hidden = some shown → may (.new shown.rk))
    (unhidden : ∀ sec, shown sec → sec ∉ ask.hidden) :
    ∃ q, Paging.readListing sid ask.hidden list p = .ok q ∧ Passing sid items shown may ask known q := by
  obtain ⟨sent, -, answered⟩ := honest p.requests p.ledger.next maxShelfItems
  have length : ((items.drop p.ledger.next).take maxShelfItems).length =
      min maxShelfItems (items.length - p.ledger.next) := by
    rw [length_take, length_drop]
  have known_now : Reaches items p.total ∨ SendsTotal items list := by
    rcases passing.total with eq | reaches
    · rw [eq]
      assumption
    · exact .inl reaches
  have total := total_reaches honest answered known_now
  generalize after : (if 0 < sent then sent.toNat else p.total) = now at total
  refine ⟨takeListed sid ask.hidden p ⟨Usize.toSigned p.ledger.next, sent, (items.drop p.ledger.next).take maxShelfItems⟩,
    by unfold Paging.readListing; rw [answered]; rfl, ?_⟩
  unfold takeListed
  dsimp only
  rw [after, if_neg (by rintro (other | long); exact other rfl; omega)]
  obtain ⟨q, took, result, page⟩ := listed_took (p := { p with total := now, requests := p.requests + 1 })
    ((items.drop p.ledger.next).take maxShelfItems) 0
    (fun item mem => allowed item (mem_of_mem_drop (mem_of_mem_take mem)))
  have fits := page.fits
  rw [result]
  rw [Nat.zero_add]
  have sound : Sound sid items shown may { q.ledger with next := p.ledger.next + took } := by
    refine ⟨page.recorded passing.sound.recorded, ?_, ?_, ?_⟩
    · intro again i key before due
      change i < p.ledger.next + took at before
      rw [page.rescans] at again
      rcases Nat.lt_or_ge i p.ledger.next with read_before | here
      · exact page.grows (passing.sound.passed again i key read_before due)
      · obtain ⟨item, shown_card, its, accepted, visible, rfl⟩ := due
        refine page.covers (i - p.ledger.next) item shown_card (by omega) ?_ ?_
        · rw [List.getElem?_take_of_lt (by omega), List.getElem?_drop]
          have place : p.ledger.next + (i - p.ledger.next) = i := by omega
          rw [place]
          exact its
        · exact Option.filter_eq_some_iff.mpr ⟨accepted, decide_eq_true (unhidden _ visible)⟩
    · intro none_before
      exact page.idle.trans (passing.sound.first_pass (page.rescans.symm.trans none_before))
    · intro done i key due
      exact page.grows (passing.sound.complete (page.done.symm.trans done) i key due)
  refine ⟨?_, page.room passing.room, ?_, ?_⟩
  · split
    · rename_i ends
      refine sound.endPass now ?_
      simp only [pageEnd, and_eq_true, or_eq_true, decide_eq_true_eq] at ends
      change items.length ≤ p.ledger.next + took
      obtain ⟨all, short | ⟨some_total, past⟩⟩ := ends
      · omega
      · rcases total with zero | reaches
        · omega
        · omega
    · exact sound
  · intro back
    rw [forward] at back
    cases back
  · right
    rw [page.total]
    exact total

theorem Passing.turn (listing : HonestListing items list) (honest : HonestMany items many)
    (passing : Passing sid items shown may ask known p) (space : p.rows.length < maxShelfItems)
    (reaches : Reaches items known ∨ SendsTotal items list)
    (allowed : ∀ item ∈ items, ∀ shown, card sid item ask.hidden = some shown → may (.new shown.rk))
    (unhidden : ∀ sec, shown sec → sec ∉ ask.hidden) :
    passageTurn sid ask list many p = .ok none ∨
      ∃ q, passageTurn sid ask list many p = .ok (some q) ∧ Passing sid items shown may ask known q := by
  unfold passageTurn
  split
  · rename_i back
    split
    · exact .inl rfl
    · obtain ⟨q, read, later⟩ := passing.readBack honest back space
      exact .inr ⟨q, by rw [read]; rfl, later⟩
  · rename_i ahead
    have forward : ask.before = false := Bool.eq_false_iff.mpr ahead
    split
    · rename_i held
      obtain ⟨q, read, later⟩ := passing.readAhead honest forward space held
      exact .inr ⟨q, by rw [read]; rfl, later⟩
    · split
      · exact .inl rfl
      · obtain ⟨q, read, later⟩ := passing.readListing listing forward reaches allowed unhidden
        exact .inr ⟨q, by rw [read]; rfl, later⟩

theorem Passing.passages (listing : HonestListing items list) (honest : HonestMany items many)
    (reaches : Reaches items known ∨ SendsTotal items list)
    (allowed : ∀ item ∈ items, ∀ shown, card sid item ask.hidden = some shown → may (.new shown.rk))
    (unhidden : ∀ sec, shown sec → sec ∉ ask.hidden) (left : Nat)
    (passing : Passing sid items shown may ask known p) :
    ∃ q, Paging.passages sid ask list many left p = .ok q ∧ Passing sid items shown may ask known q := by
  induction left generalizing p with
  | zero => exact ⟨p, rfl, passing⟩
  | succ left ih =>
    unfold Paging.passages
    split
    · rename_i space
      rcases passing.turn listing honest space reaches allowed unhidden with stops | ⟨q, goes, later⟩
      · rw [stops]
        exact ⟨p, rfl, passing⟩
      · rw [goes]
        exact ih later
    · exact ⟨p, rfl, passing⟩

theorem beginPassage_passing (rows : List Row) (info : PageInfo)
    (sound : Sound sid items shown may ledger) :
    Passing sid items shown may ask info.total (beginPassage ask rows info ledger) := by
  refine ⟨sound, ?_, ?_, .inl rfl⟩
  · have half : hubFetchCount ≤ maxShelfItems := by decide
    unfold beginPassage
    split
    · rw [length_take]
      omega
    · rw [length_drop]
      omega
  · intro _
    unfold beginPassage
    dsimp only
    cases found : (Option.bind _ fun item : PmsMovie => ledger.position item.rk) with
    | none => exact Nat.min_le_right _ _
    | some i =>
      obtain ⟨item, -, place⟩ := Option.bind_eq_some_iff.mp found
      exact Nat.le_of_lt (positionOf_lt place)

/-- One window over a ledger, as an ask returns it. -/
structure Placed (ledger : Ledger) (rows : List Row) : Prop where
  ascending : KeyOrder.Ascending Prod.fst rows
  index : ∀ row ∈ rows, ledger.keys[row.1]? = some (.new row.2.rk)
  room : rows.length ≤ maxShelfItems

theorem ledgerWindow_sound {current : List Row × PageInfo}
    (listing : HonestListing items list) (honest : HonestMany items many)
    (sound : Sound sid items shown may ledger) (reaches : Reaches items current.2.total ∨ SendsTotal items list)
    (allowed : ∀ item ∈ items, ∀ shown, card sid item ask.hidden = some shown → may (.new shown.rk))
    (unhidden : ∀ sec, shown sec → sec ∉ ask.hidden) :
    ∃ window ledger', ledgerWindow sid ask current ledger list many = .ok (window, ledger') ∧
      Sound sid items shown may ledger' ∧ Placed ledger' window.1 ∧
      (window.2.total = current.2.total ∨ Reaches items window.2.total) := by
  obtain ⟨p, result, passing⟩ := (beginPassage_passing current.1 current.2 sound).passages listing honest reaches
    allowed unhidden requestsPerAsk
  refine ⟨endPassage ask current.2 p, p.ledger, ?_, passing.sound,
    ⟨placed_ascending _ _, placed_index _ _, Nat.le_trans (placed_length _ _) passing.room⟩, passing.total⟩
  unfold ledgerWindow
  rw [result]
  rfl

end

section
variable (sid : ServerId) (items : List Metadata)

/-- An ask, with the server as it answers it. -/
structure LedgerAsk where
  ask : Ask
  list : Fetch
  many : Many

/-- Asks in a row, each over the window and the ledger the last one left. -/
def ledgerRun : List LedgerAsk → (List Row × PageInfo) × Ledger → Reading ((List Row × PageInfo) × Ledger)
  | [], state => .ok state
  | step :: rest, state => do
      let state ← ledgerWindow sid step.ask state.1 state.2 step.list step.many
      ledgerRun rest state

/-- The ledger of a row that has just moved onto it. -/
def movedOnto (keys : List String) (next : Nat) : Ledger := ⟨keys.map .new, true, next, 0, 0, 0, 0, false⟩

variable {sid items} {shown : Int → Prop} {may : LedgerKey → Prop}

theorem movedOnto_sound {keys : List String} (next : Nat) (nodup : keys.Nodup)
    (allowed : ∀ key ∈ keys, may (.new key)) : Sound sid items shown may (movedOnto keys next) := by
  refine ⟨⟨nodup.map fun _ _ => new_injective, ?_, ?_⟩, ?_, fun _ => rfl, ?_⟩
  · intro key mem
    obtain ⟨text, -, rfl⟩ := mem_map.mp mem
    rw [LedgerKey.toText_new]
  · intro key mem
    obtain ⟨text, there, rfl⟩ := mem_map.mp mem
    exact allowed text there
  · intro again
    cases again
  · intro done
    cases done

theorem ledgerRun_sound (steps : List LedgerAsk) (state : (List Row × PageInfo) × Ledger)
    (honest : ∀ step ∈ steps, HonestListing items step.list ∧ HonestMany items step.many)
    (sound : Sound sid items shown may state.2)
    (reaches : Reaches items state.1.2.total ∨ ∀ step ∈ steps, SendsTotal items step.list)
    (allowed : ∀ step ∈ steps, ∀ item ∈ items, ∀ shown, card sid item step.ask.hidden = some shown → may (.new shown.rk))
    (unhidden : ∀ step ∈ steps, ∀ sec, shown sec → sec ∉ step.ask.hidden) :
    ∃ state', ledgerRun sid steps state = .ok state' ∧ Sound sid items shown may state'.2 ∧
      (steps ≠ [] ∨ Placed state.2 state.1.1 → Placed state'.2 state'.1.1) := by
  induction steps generalizing state with
  | nil =>
    refine ⟨state, rfl, sound, ?_⟩
    rintro (some_steps | placed)
    · exact absurd rfl some_steps
    · exact placed
  | cons step rest ih =>
    have here : step ∈ step :: rest := mem_cons_self ..
    have later : ∀ {other}, other ∈ rest → other ∈ step :: rest := mem_cons_of_mem _
    obtain ⟨window, ledger, result, next_sound, placed, total⟩ := ledgerWindow_sound (honest step here).1
      (honest step here).2 sound (reaches.imp_right fun sends => sends step here) (allowed step here)
      (unhidden step here)
    obtain ⟨last, rest_result, last_sound, last_placed⟩ := ih (window, ledger)
      (fun other mem => honest other (later mem)) next_sound (by
        rcases reaches with known | sends
        · rcases total with eq | known_now
          · rw [← eq] at known
            exact .inl known
          · exact .inl known_now
        · exact .inr fun other mem => sends other (later mem))
      (fun other mem => allowed other (later mem)) (fun other mem => unhidden other (later mem))
    refine ⟨last, ?_, last_sound, fun _ => last_placed (.inr placed)⟩
    unfold ledgerRun
    rw [result]
    exact rest_result

/-- A walk over the ledger against a listing that holds still: whatever was shown before,
the keys stay apart and only listed cards join them, every window stands at its keys'
indices, and when the walk is done every listed card that no ask hid was recorded. The
total the window came with must not be a smaller one than the listing's, unless every
page sends it. -/
theorem ledgerRun_misses_nothing (sid : ServerId) (items : List Metadata) (shownKeys : List String) (next : Nat)
    (window : List Row × PageInfo) (steps : List LedgerAsk) (apart : shownKeys.Nodup)
    (honest : ∀ step ∈ steps, HonestListing items step.list ∧ HonestMany items step.many)
    (reaches : Reaches items window.2.total ∨ ∀ step ∈ steps, SendsTotal items step.list) :
    ∃ window' ledger, ledgerRun sid steps (window, movedOnto shownKeys next) = .ok (window', ledger) ∧
      ledger.keys.Nodup ∧
      (∀ key ∈ ledger.keys, key ∈ shownKeys.map .new ∨ ∃ step ∈ steps, ∃ item ∈ items, ∃ shown,
        card sid item step.ask.hidden = some shown ∧ key = .new shown.rk) ∧
      (steps ≠ [] → Placed ledger window'.1) ∧
      (ledger.done = true → ∀ item ∈ items, ∀ shown, shelfCard item sid = some shown →
        (∀ step ∈ steps, shown.sec ∉ step.ask.hidden) → .new shown.rk ∈ ledger.keys) := by
  have begun : Sound sid items (fun sec => ∀ step ∈ steps, sec ∉ step.ask.hidden)
      (fun key => key ∈ shownKeys.map .new ∨ ∃ step ∈ steps, ∃ item ∈ items, ∃ shown,
        card sid item step.ask.hidden = some shown ∧ key = .new shown.rk) (movedOnto shownKeys next) :=
    movedOnto_sound next apart fun key member => .inl (mem_map_of_mem member)
  obtain ⟨⟨window', ledger⟩, result, sound, placed⟩ := ledgerRun_sound steps (window, movedOnto shownKeys next) honest
    begun reaches
    (fun step member item listed shown accepted => .inr ⟨step, member, item, listed, shown, accepted, rfl⟩)
    (fun step member sec visible => visible step member)
  refine ⟨window', ledger, result, sound.recorded.nodup, sound.recorded.sources, fun some_steps => placed (.inl some_steps),
    ?_⟩
  intro done item listed shown accepted visible
  obtain ⟨i, its⟩ := List.getElem?_of_mem listed
  exact sound.complete done i _ ⟨item, shown, its, accepted, visible, rfl⟩

/-- The two server calls over one list that holds still. -/
def steadyList (items : List Metadata) (sent : Bool) : Fetch := fun _ start size =>
  some ⟨Usize.toSigned start, if sent then items.length else 0, (items.drop start).take size⟩

def steadyMany (items : List Metadata) : Many := fun _ keys =>
  some ⟨0, 0, items.filter (fun item => clean item.ratingKey ∈ keys)⟩

theorem steady_honest (items : List Metadata) (sent : Bool) :
    HonestListing items (steadyList items sent) ∧ HonestMany items (steadyMany items) := by
  constructor
  · intro call start size
    refine ⟨if sent then items.length else 0, ?_, rfl⟩
    cases sent with
    | true => exact .inr rfl
    | false => exact .inl rfl
  · intro call keys
    refine ⟨_, rfl, ?_⟩
    intro item listed asked
    exact ⟨item, mem_filter.mpr ⟨listed, decide_eq_true asked⟩, rfl⟩

/-- A preview of twelve films, and a listing that goes on with twenty-four items that have
no poster and one more film. -/
def preview : List Metadata := (List.range 12).map (fun n => ⟨toString n, "movie", "poster", "", 1⟩)

def pastPosterless : List Metadata :=
  preview ++ (List.range 24).map (fun n => ⟨toString (n + 12), "movie", "", "", 1⟩) ++ [⟨"last", "movie", "poster", "", 1⟩]

def previewKeys : List String := (List.range 12).map toString

/-- The window of a preview, with the total its hub came with. -/
def previewWindow (total : Nat) : List Row × PageInfo :=
  (preview.zipIdx.map (fun entry => (entry.2, parseItem entry.1 ⟨0⟩)), ⟨0, 12, total, true, false⟩)

def askOn (items : List Metadata) (sent : Bool) : LedgerAsk :=
  ⟨⟨12, false, []⟩, steadyList items sent, steadyMany items⟩

theorem ledgerRun_misses_nothing_preview :
    ∃ window' ledger, ledgerRun ⟨0⟩ [askOn pastPosterless false] (previewWindow 0, movedOnto previewKeys 12) =
        .ok (window', ledger) ∧
      (ledger.done = true → LedgerKey.new "last" ∈ ledger.keys) := by
  obtain ⟨window', ledger, result, -, -, -, complete⟩ := ledgerRun_misses_nothing ⟨0⟩ pastPosterless previewKeys 12
    (previewWindow 0) [askOn pastPosterless false] (by decide)
    (fun step member => by rw [mem_singleton.mp member]; exact steady_honest _ _) (.inl (.inl rfl))
  refine ⟨window', ledger, result, ?_⟩
  intro done
  exact complete done ⟨"last", "movie", "poster", "", 1⟩ (by decide) _ rfl (by decide)

/-- A hub that sends no total has its preview's size for one, and a pass that reaches it
is taken for a whole one: the walk is done and the last film was never read. -/
theorem preview_size_ends_walk :
    ¬ ∀ (sid : ServerId) (items : List Metadata) (shownKeys : List String) (next : Nat)
      (window : List Row × PageInfo) (steps : List LedgerAsk), shownKeys.Nodup →
      (∀ step ∈ steps, HonestListing items step.list ∧ HonestMany items step.many) →
      ∀ window' ledger, ledgerRun sid steps (window, movedOnto shownKeys next) = .ok (window', ledger) →
        ledger.done = true → ∀ item ∈ items, ∀ shown, shelfCard item sid = some shown →
          (∀ step ∈ steps, shown.sec ∉ step.ask.hidden) → .new shown.rk ∈ ledger.keys := by
  intro every
  have result : (ledgerRun ⟨0⟩ [askOn pastPosterless false] (previewWindow 12, movedOnto previewKeys 12)).toOption.map
      (fun state => (state.2.done, decide (LedgerKey.new "last" ∈ state.2.keys))) = some (true, false) := by
    decide
  cases run : ledgerRun ⟨0⟩ [askOn pastPosterless false] (previewWindow 12, movedOnto previewKeys 12) with
  | error exit =>
    rw [run] at result
    cases result
  | ok state =>
    rw [run] at result
    obtain ⟨done, missed⟩ := Prod.mk.inj (Option.some.inj result)
    have there := every ⟨0⟩ pastPosterless previewKeys 12 (previewWindow 12) [askOn pastPosterless false] (by decide)
      (fun step member => by rw [mem_singleton.mp member]; exact steady_honest _ _) state.1 state.2 run done
      ⟨"last", "movie", "poster", "", 1⟩ (by decide) _ rfl (by decide)
    exact absurd there (of_decide_eq_false missed)

end
end PlxNative.Paging
