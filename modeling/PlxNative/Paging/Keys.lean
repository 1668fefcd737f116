import PlxNative.Lib.Located
import PlxNative.Paging.LedgerWalk

/-! The keys a ledger holds, with the index that tells where each one is. The index is written
beside the list, entry by entry, and noting a window keeps the two as one. -/
namespace PlxNative.Paging
open List Option
open Located (record Exact)

structure Keys where
  list : List LedgerKey
  index : LedgerKey → Option Nat

namespace Keys
variable (keys : Keys)

def indexed (list : List LedgerKey) : LedgerKey → Option Nat := record (fun _ => none) list.zipIdx

def firstSeen (seen : List LedgerKey) : List LedgerKey → List LedgerKey
  | [] => []
  | key :: rest => if key ∈ seen then firstSeen seen rest else key :: firstSeen (key :: seen) rest

def fromIter (all : List LedgerKey) : Keys := ⟨firstSeen [] all, indexed (firstSeen [] all)⟩

def positionOf (key : LedgerKey) : Option Nat := keys.index key

def contains (key : LedgerKey) : Bool := (keys.index key).isSome

def push (key : LedgerKey) : Keys :=
  if keys.contains key then keys
  else ⟨keys.list ++ [key], Function.update keys.index key (some keys.list.length)⟩

/-- No result is the panic of an insertion past the end. -/
def insertAt (at_ : Nat) (key : LedgerKey) : Option Keys :=
  if keys.contains key then some keys
  else if keys.list.length < at_ then none
  else
    let list := Located.insert keys.list at_ key
    some ⟨list, record keys.index (list.zipIdx.drop at_)⟩

def edit (change : List LedgerKey → List LedgerKey) : Keys := ⟨change keys.list, indexed (change keys.list)⟩

def retain (keep : LedgerKey → Bool) : Keys := keys.edit (List.filter keep)

def windowKeys (rows : List Row) : List LedgerKey := rows.map (fun row => .new row.2.rk)

/-- Whether places come that are not past the last one. -/
def backwards : Option Nat → List Nat → Bool
  | _, [] => false
  | last, index :: rest => last.any (index ≤ ·) || backwards (some index) rest

def contradicts (rows : List Row) : Bool := backwards none ((windowKeys rows).filterMap keys.positionOf)

def insertAll (at_ : Nat) (window : List LedgerKey) (keys : Keys) : Option Keys :=
  window.foldlM (fun keys key => keys.insertAt at_ key) keys

def noteFrom (keys : Keys) (cursor : Nat) : List LedgerKey → Option Keys
  | [] => some keys
  | key :: rest => match keys.positionOf key with
    | some index => noteFrom keys (index + 1) rest
    | none => (keys.insertAt cursor key).bind (noteFrom · (cursor + 1) rest)

/-- The window's keys, in the order it has them; a new one goes beside the known one it is next to. -/
def note (rows : List Row) : Option Keys :=
  let window := windowKeys rows
  if window.all keys.contains then some keys
  else match window.findIdx? keys.contains with
    | none => some (window.foldl push keys)
    | some anchor => do
        let first ← window[anchor]?
        let at_ := (keys.positionOf first).getD 0
        let keys ← insertAll at_ (window.take anchor).reverse keys
        noteFrom keys (at_ + anchor) (window.drop anchor)

inductive Built : Keys → Prop where
  | fromIter (all : List LedgerKey) : Built (fromIter all)
  | push {keys : Keys} (built : Built keys) (key : LedgerKey) : Built (keys.push key)
  | insertAt {keys next : Keys} (built : Built keys) (at_ : Nat) (key : LedgerKey)
      (inserted : keys.insertAt at_ key = some next) : Built next
  | retain {keys : Keys} (built : Built keys) (keep : LedgerKey → Bool) : Built (keys.retain keep)

abbrev Sound : Prop := Exact keys.index keys.list

section
variable {keys : Keys} {key : LedgerKey}

theorem Sound.contains_iff (sound : keys.Sound) : keys.contains key = true ↔ key ∈ keys.list := sound.mem_iff.symm

theorem Sound.not_contains (sound : keys.Sound) : ¬keys.contains key = true ↔ key ∉ keys.list := not_congr sound.contains_iff

theorem firstSeen_spec (seen all : List LedgerKey) :
    (firstSeen seen all).Nodup ∧ ∀ key ∈ firstSeen seen all, key ∉ seen := by
  induction all generalizing seen with
  | nil => exact ⟨nodup_nil, fun _ mem => by cases mem⟩
  | cons key rest ih =>
    unfold firstSeen
    split
    · exact ih seen
    · rename_i new
      obtain ⟨nodup, fresh⟩ := ih (key :: seen)
      refine ⟨nodup_cons.mpr ⟨fun mem => fresh key mem mem_cons_self, nodup⟩, ?_⟩
      intro k mem
      rcases mem_cons.mp mem with rfl | mem
      · exact new
      · exact fun old => fresh k mem (mem_cons_of_mem _ old)

theorem fromIter_sound (all : List LedgerKey) : (fromIter all).Sound := .whole (firstSeen_spec [] all).1

theorem Sound.push (sound : keys.Sound) (key : LedgerKey) : (keys.push key).Sound := by
  unfold Keys.push
  split
  · exact sound
  · rename_i new
    exact sound.append (sound.not_contains.mp new)

theorem Sound.retain (sound : keys.Sound) (keep : LedgerKey → Bool) : (keys.retain keep).Sound := .whole (sound.nodup.filter keep)

/-- An insertion within the list does not panic: the key is there, once, and the others as they were. -/
structure Inserts (keys : Keys) (at_ : Nat) (key : LedgerKey) (next : Keys) : Prop where
  sound : next.Sound
  list : next.list = if key ∈ keys.list then keys.list else Located.insert keys.list at_ key

theorem Sound.insertAt (sound : keys.Sound) {at_ : Nat} (inside : at_ ≤ keys.list.length) (key : LedgerKey) :
    ∃ next, keys.insertAt at_ key = some next ∧ Inserts keys at_ key next := by
  unfold Keys.insertAt
  by_cases known : key ∈ keys.list
  · rw [if_pos (sound.contains_iff.mpr known)]
    exact ⟨keys, rfl, sound, (if_pos known).symm⟩
  · rw [if_neg (sound.not_contains.mpr known), if_neg (Nat.not_lt_of_le inside)]
    exact ⟨_, rfl, sound.insert known inside, (if_neg known).symm⟩

theorem Built.sound (built : Built keys) : keys.Sound := by
  induction built with
  | fromIter all => exact fromIter_sound all
  | push _ key ih => exact ih.push key
  | @insertAt keys next _ at_ key inserted ih =>
    by_cases inside : at_ ≤ keys.list.length
    · obtain ⟨found, equal, inserts⟩ := ih.insertAt inside key
      rw [equal] at inserted
      injection inserted with inserted
      exact inserted ▸ inserts.sound
    · unfold Keys.insertAt at inserted
      rw [if_pos (Nat.lt_of_not_le inside)] at inserted
      split at inserted
      · injection inserted with inserted
        exact inserted ▸ ih
      · cases inserted
  | retain _ keep ih => exact ih.retain keep

end
section
variable {keys : Keys} {ledger : Ledger}

end
section
variable {keys next : Keys}

/-- Keys that hold a window too, with what they held in its order. -/
structure Grows (keys : Keys) (window : List LedgerKey) (next : Keys) : Prop where
  sound : next.Sound
  kept : keys.list.Sublist next.list
  held : ∀ key ∈ window, key ∈ next.list

variable {window : List LedgerKey}

theorem Grows.refl (sound : keys.Sound) (held : ∀ key ∈ window, key ∈ keys.list) : Grows keys window keys :=
  ⟨sound, .refl _, held⟩

theorem Grows.trans {last : Keys} {window more : List LedgerKey} (first : Grows keys window next) (second : Grows next more last) :
    Grows keys (window ++ more) last := by
  refine ⟨second.sound, first.kept.trans second.kept, ?_⟩
  intro key mem
  rcases mem_append.mp mem with mem | mem
  · exact second.kept.subset (first.held key mem)
  · exact second.held key mem

theorem insert_sublist (list : List LedgerKey) (at_ : Nat) (key : LedgerKey) : list.Sublist (Located.insert list at_ key) := by
  have cut : (list.take at_ ++ list.drop at_).Sublist (Located.insert list at_ key) :=
    (List.Sublist.refl _).append (sublist_cons_self ..)
  rwa [take_append_drop] at cut

theorem Inserts.grows {at_ : Nat} {key : LedgerKey} (inserts : Inserts keys at_ key next) : Grows keys [key] next := by
  have list := inserts.list
  by_cases known : key ∈ keys.list
  · rw [if_pos known] at list
    exact ⟨inserts.sound, list ▸ .refl _, fun k mem => by rw [list, mem_singleton.mp mem]; exact known⟩
  · rw [if_neg known] at list
    refine ⟨inserts.sound, list ▸ insert_sublist .., ?_⟩
    intro k mem
    rw [list, mem_singleton.mp mem]
    exact mem_append_right _ mem_cons_self

theorem Grows.length (grows : Grows keys window next) : keys.list.length ≤ next.list.length :=
  grows.kept.length_le

section
variable (sound : keys.Sound)
include sound

theorem push_grows (key : LedgerKey) : Grows keys [key] (keys.push key) := by
  refine ⟨sound.push key, ?_, ?_⟩
  · unfold Keys.push
    split
    · exact .refl _
    · exact sublist_append_left ..
  · intro k mem
    rw [mem_singleton.mp mem]
    unfold Keys.push
    split
    · exact sound.contains_iff.mp ‹_›
    · exact mem_append_right _ (mem_singleton_self key)

theorem pushes_grow (window : List LedgerKey) : Grows keys window (window.foldl push keys) := by
  induction window generalizing keys with
  | nil => exact .refl sound (fun _ mem => by cases mem)
  | cons key rest ih => exact (push_grows sound key).trans (ih (sound.push key))

theorem inserts_grow {at_ : Nat} (inside : at_ ≤ keys.list.length) (window : List LedgerKey) :
    ∃ next, insertAll at_ window keys = some next ∧ Grows keys window next := by
  induction window generalizing keys with
  | nil => exact ⟨keys, rfl, .refl sound (fun _ mem => by cases mem)⟩
  | cons key rest ih =>
    obtain ⟨mid, inserted, inserts⟩ := sound.insertAt inside key
    have grows := inserts.grows
    obtain ⟨last, more, further⟩ := ih grows.sound (inside.trans grows.length)
    refine ⟨last, ?_, grows.trans further⟩
    rw [insertAll, foldlM_cons, inserted]
    exact more

theorem noteFrom_grows (cursor : Nat)
    (inside : cursor ≤ keys.list.length ∨ ∃ key, window.head? = some key ∧ key ∈ keys.list) :
    ∃ next, noteFrom keys cursor window = some next ∧ Grows keys window next := by
  induction window generalizing keys cursor with
  | nil => exact ⟨keys, rfl, .refl sound (fun _ mem => by cases mem)⟩
  | cons key rest ih =>
    unfold noteFrom
    cases place : keys.positionOf key with
    | some index =>
      have found : index < keys.list.length := sound.lt place
      have known : key ∈ keys.list := List.mem_of_getElem? ((sound.places key index).mp place)
      obtain ⟨next, noted, grows⟩ := ih sound (index + 1) (.inl found)
      have one : Grows keys [key] keys := .refl sound (fun k mem => by rw [mem_singleton.mp mem]; exact known)
      exact ⟨next, noted, one.trans grows⟩
    | none =>
      have unknown : key ∉ keys.list := by
        rw [sound.mem_iff]
        change ¬(keys.positionOf key).isSome = true
        rw [place]
        exact Bool.false_ne_true
      have within : cursor ≤ keys.list.length := by
        rcases inside with inside | ⟨first, head, known⟩
        · exact inside
        · injection head with head
          exact absurd (head ▸ known) unknown
      obtain ⟨mid, inserted, inserts⟩ := sound.insertAt within key
      have longer : mid.list.length = keys.list.length + 1 := by
        rw [inserts.list, if_neg unknown, Located.insert, length_append, length_cons, ← Nat.add_assoc, ← length_append,
          take_append_drop]
      obtain ⟨next, noted, grows⟩ := ih inserts.sound (cursor + 1) (.inl (by omega))
      refine ⟨next, ?_, inserts.grows.trans grows⟩
      simp only [inserted]
      exact noted

/-- The first known key of a window, and the new ones before it. -/
structure Anchored (keys : Keys) (window : List LedgerKey) (anchor place : Nat) (first : LedgerKey) (rest : List LedgerKey) : Prop where
  found : window.findIdx? keys.contains = some anchor
  here : window[anchor]? = some first
  split : window.drop anchor = first :: rest
  place : keys.positionOf first = some place
  new : ∀ key ∈ window.take anchor, key ∉ keys.list

theorem Sound.anchored {anchor : Nat}
    (found : window.findIdx? keys.contains = some anchor) : ∃ place first rest, Anchored keys window anchor place first rest := by
  obtain ⟨inside, known, before⟩ := List.findIdx?_eq_some_iff_getElem.mp found
  obtain ⟨place, located⟩ := Option.isSome_iff_exists.mp known
  refine ⟨place, window[anchor], window.drop (anchor + 1), found, List.getElem?_eq_getElem inside,
    drop_eq_getElem_cons inside, located, ?_⟩
  intro key mem
  obtain ⟨i, early, eq⟩ := mem_take_iff_getElem.mp mem
  apply sound.not_contains.mp
  rw [← eq]
  exact before i (by omega)

end

theorem Anchored.note_eq {rows : List Row} {anchor place : Nat} {first : LedgerKey} {rest : List LedgerKey}
    (anchored : Anchored keys (windowKeys rows) anchor place first rest) (some_ : ¬(windowKeys rows).all keys.contains = true) :
    keys.note rows = (insertAll place ((windowKeys rows).take anchor).reverse keys).bind
      (fun keys => noteFrom keys (place + anchor) (first :: rest)) := by
  unfold note
  simp only [if_neg some_, anchored.found, anchored.here, bind_eq_bind, bind_some, anchored.place, anchored.split,
    getD_some]

theorem note_grows (sound : keys.Sound) (rows : List Row) : ∃ noted, keys.note rows = some noted ∧ Grows keys (windowKeys rows) noted := by
  by_cases all : (windowKeys rows).all keys.contains = true
  · refine ⟨keys, if_pos all, .refl sound ?_⟩
    exact fun key mem => sound.contains_iff.mp (all_eq_true.mp all key mem)
  · cases found : (windowKeys rows).findIdx? keys.contains with
    | none =>
      refine ⟨_, ?_, pushes_grow sound (windowKeys rows)⟩
      unfold note
      simp only [if_neg all, found]
    | some anchor =>
      obtain ⟨place, first, rest, anchored⟩ := sound.anchored found
      have inside := sound.lt anchored.place
      have known : first ∈ keys.list := List.mem_of_getElem? ((sound.places first place).mp anchored.place)
      obtain ⟨mid, inserted, before⟩ := inserts_grow sound inside.le ((windowKeys rows).take anchor).reverse
      obtain ⟨noted, noting, after⟩ :=
        noteFrom_grows before.sound (place + anchor) (.inr ⟨first, List.head?_cons, before.kept.subset known⟩)
      have whole := before.trans after
      refine ⟨noted, by rw [anchored.note_eq all, inserted]; exact noting, whole.sound, whole.kept, ?_⟩
      intro key mem
      apply whole.held
      rw [← take_append_drop anchor (windowKeys rows), mem_append] at mem
      rw [mem_append, mem_reverse, ← anchored.split]
      exact mem

theorem note_again (sound : keys.Sound) {rows : List Row} (held : ∀ key ∈ windowKeys rows, key ∈ keys.list) : keys.note rows = some keys :=
  if_pos (all_eq_true.mpr (fun key mem => sound.contains_iff.mpr (held key mem)))

end
section
variable {keys next : Keys}

theorem backwards_eq_false (last : Option Nat) (places : List Nat) :
    backwards last places = false ↔ (∀ index ∈ last, ∀ place ∈ places, index < place) ∧ places.Pairwise (· < ·) := by
  induction places generalizing last with
  | nil => simp [backwards]
  | cons place rest ih =>
    rw [backwards, Bool.or_eq_false_iff, ih, pairwise_cons]
    cases last with
    | none => simp
    | some index =>
      simp only [any_some, decide_eq_false_iff_not, Nat.not_le, mem_some_iff, forall_eq', mem_cons, forall_eq_or_imp]
      constructor
      · rintro ⟨later, after, pairs⟩
        exact ⟨⟨later, fun other mem => later.trans (after other mem)⟩, after, pairs⟩
      · rintro ⟨⟨later, _⟩, after, pairs⟩
        exact ⟨later, after, pairs⟩

theorem Sound.contradicts_iff (sound : keys.Sound) (rows : List Row) :
    keys.contradicts rows = false ↔ ((windowKeys rows).filter keys.contains).Sublist keys.list := by
  have known : ∀ key ∈ (windowKeys rows).filter keys.contains, key ∈ keys.list :=
    fun key mem => sound.contains_iff.mp (mem_filter.mp mem).2
  have places : ((windowKeys rows).filter keys.contains).filterMap keys.positionOf = (windowKeys rows).filterMap keys.positionOf := by
    rw [filterMap_filter]
    congr 1
    funext key
    unfold contains positionOf
    cases keys.index key <;> rfl
  rw [sound.sublist_iff known, contradicts, backwards_eq_false]
  change _ ↔ (((windowKeys rows).filter keys.contains).filterMap keys.positionOf).Pairwise (· < ·)
  rw [places]
  simp

variable {window : List LedgerKey}

theorem inserts_list (sound : keys.Sound) {at_ : Nat} (inside : at_ ≤ keys.list.length)
    (nodup : window.Nodup) (new : ∀ key ∈ window, key ∉ keys.list)
    (inserted : insertAll at_ window.reverse keys = some next) :
    next.list = keys.list.take at_ ++ (window ++ keys.list.drop at_) := by
  induction window generalizing next with
  | nil =>
    injection inserted with inserted
    rw [← inserted, nil_append, take_append_drop]
  | cons key rest ih =>
    obtain ⟨fresh, nodup⟩ := nodup_cons.mp nodup
    obtain ⟨mid, before, grows⟩ := inserts_grow sound inside rest.reverse
    have list := ih nodup (fun k mem => new k (mem_cons_of_mem _ mem)) before
    obtain ⟨last, equal, inserts⟩ := grows.sound.insertAt (inside.trans grows.length) key
    have both : insertAll at_ (key :: rest).reverse keys = some last := by
      rw [insertAll] at before ⊢
      rw [reverse_cons, foldlM_append, before]
      change (mid.insertAt at_ key).bind some = some last
      rw [equal]
      rfl
    have eq : last = next := Option.some.inj (both.symm.trans inserted)
    have unknown : key ∉ mid.list := by
      rw [list]
      intro mem
      have old := new key mem_cons_self
      rcases mem_append.mp mem with front | mem
      · exact old (mem_of_mem_take front)
      · rcases mem_append.mp mem with among | back
        · exact fresh among
        · exact old (mem_of_mem_drop back)
    have front : (keys.list.take at_).length = at_ := by rw [length_take, Nat.min_eq_left inside]
    rw [← eq, inserts.list, if_neg unknown, Located.insert, list, take_left' front, drop_left' front]
    rfl

theorem noteFrom_sublist (sound : keys.Sound) {front back seen window : List LedgerKey} (cut : keys.list = front ++ back)
    (nodup : window.Nodup) (before : seen.Sublist front) (after : (window.filter (· ∈ keys.list)).Sublist back)
    (noted : noteFrom keys front.length window = some next) : (seen ++ window).Sublist next.list := by
  induction window generalizing keys front back seen with
  | nil =>
    injection noted with noted
    rw [← noted, cut, append_nil]
    exact before.trans (sublist_append_left ..)
  | cons key rest ih =>
    obtain ⟨fresh, nodup⟩ := nodup_cons.mp nodup
    have regroup : seen ++ key :: rest = (seen ++ [key]) ++ rest := by rw [append_assoc, singleton_append]
    rw [regroup]
    unfold noteFrom at noted
    cases place : keys.positionOf key with
    | some index =>
      simp only [place] at noted
      have found := (sound.places key index).mp place
      have known : key ∈ keys.list := List.mem_of_getElem? found
      rw [filter_cons_of_pos (p := fun k => decide (k ∈ keys.list)) (decide_eq_true known)] at after
      -- the key is after the cursor, so the new cursor is the end of what comes before it and itself
      obtain ⟨mid, tail, shape⟩ := append_of_mem (after.subset mem_cons_self)
      have whole : keys.list = (front ++ mid) ++ key :: tail := by rw [cut, shape, append_assoc]
      have single := sound.nodup
      rw [whole] at single
      have apart : key ∉ front ++ mid := fun mem =>
        disjoint_of_nodup_append single mem mem_cons_self
      have here : keys.positionOf key = some (front ++ mid).length := by
        apply (sound.places key _).mpr
        rw [whole, List.getElem?_append_right (Nat.le_refl _), Nat.sub_self]
        rfl
      have index_eq : index = (front ++ mid).length := Option.some.inj (place.symm.trans here)
      have step : index + 1 = ((front ++ mid) ++ [key]).length := by
        simp only [index_eq, length_append, length_singleton]
      rw [step] at noted
      rw [shape] at after
      have split : keys.list = (front ++ mid ++ [key]) ++ tail := by
        rw [whole, append_assoc (front ++ mid) [key] tail, singleton_append]
      refine ih sound split nodup ?_ ?_ noted
      · exact (before.trans (sublist_append_left ..)).append (.refl _)
      · exact Located.sublist_after (fun mem => apart (mem_append_right _ mem)) after
    | none =>
      simp only [place] at noted
      have unknown : key ∉ keys.list := by
        rw [sound.mem_iff]
        change ¬(keys.positionOf key).isSome = true
        rw [place]
        exact Bool.false_ne_true
      have within : front.length ≤ keys.list.length := by
        rw [cut, length_append]
        exact Nat.le_add_right ..
      obtain ⟨mid, inserted, inserts⟩ := sound.insertAt within key
      simp only [inserted] at noted
      have list : mid.list = (front ++ [key]) ++ back := by
        rw [inserts.list, if_neg unknown, Located.insert, cut, take_left, drop_left, append_assoc,
          singleton_append]
      have eq : rest.filter (· ∈ mid.list) = rest.filter (· ∈ keys.list) := by
        apply filter_congr
        intro k mem
        have other : k ≠ key := fun equal => fresh (equal ▸ mem)
        have iff_ : k ∈ mid.list ↔ k ∈ keys.list := by
          rw [list, cut]
          simp [other]
        simp only [iff_]
      rw [filter_cons_of_neg (by simpa using unknown)] at after
      have step : front.length + 1 = (front ++ [key]).length := by rw [length_append, length_singleton]
      rw [step] at noted
      exact ih inserts.sound list nodup (before.append (.refl _)) (eq ▸ after) noted

theorem pushes_list (sound : keys.Sound) (nodup : window.Nodup) (new : ∀ key ∈ window, key ∉ keys.list) :
    (window.foldl push keys).list = keys.list ++ window := by
  induction window generalizing keys with
  | nil => exact (append_nil _).symm
  | cons key rest ih =>
    obtain ⟨fresh, nodup⟩ := nodup_cons.mp nodup
    have pushed : (keys.push key).list = keys.list ++ [key] := by
      unfold Keys.push
      rw [if_neg (sound.not_contains.mpr (new key mem_cons_self))]
    have further := ih (sound.push key) nodup (by
      intro k mem old
      rw [pushed, mem_append, mem_singleton] at old
      rcases old with old | rfl
      · exact new k (mem_cons_of_mem _ mem) old
      · exact fresh mem)
    rw [foldl_cons, further, pushed, append_assoc, singleton_append]

theorem Anchored.sublist {anchor place : Nat} {first : LedgerKey} {rest : List LedgerKey} {mid : Keys}
    (anchored : Anchored keys window anchor place first rest) (sound : keys.Sound) (nodup : window.Nodup)
    (inOrder : (window.filter keys.contains).Sublist keys.list)
    (list : mid.list = keys.list.take place ++ (window.take anchor ++ keys.list.drop place)) :
    ((first :: rest).filter (· ∈ mid.list)).Sublist (keys.list.drop place) := by
  have parts : window = window.take anchor ++ first :: rest := by rw [← anchored.split, take_append_drop]
  have known : first ∈ keys.list := List.mem_of_getElem? ((sound.places first place).mp anchored.place)
  have pre : (window.take anchor).filter keys.contains = [] :=
    filter_eq_nil_iff.mpr (fun key mem => sound.not_contains.mpr (anchored.new key mem))
  have eq : (first :: rest).filter (· ∈ mid.list) = (first :: rest).filter keys.contains := by
    apply filter_congr
    intro key mem
    have apart : key ∉ window.take anchor := by
      intro early
      rw [parts] at nodup
      exact disjoint_of_nodup_append nodup early mem
    have iff_ : key ∈ mid.list ↔ keys.contains key = true := by
      rw [sound.contains_iff, list, mem_append, mem_append, or_iff_right apart, ← mem_append, take_append_drop]
    rw [Bool.eq_iff_iff, decide_eq_true_iff, iff_]
  have inside := sound.lt anchored.place
  have tail : keys.list.drop place = first :: keys.list.drop (place + 1) := by
    rw [drop_eq_getElem_cons inside]
    congr 1
    exact Option.some.inj ((List.getElem?_eq_getElem inside).symm.trans ((sound.places first place).mp anchored.place))
  have whole : keys.list = keys.list.take place ++ first :: keys.list.drop (place + 1) := by rw [← tail, take_append_drop]
  have single := sound.nodup
  rw [whole] at single
  have absent : first ∉ keys.list.take place := fun mem => disjoint_of_nodup_append single mem mem_cons_self
  rw [parts, filter_append, pre, nil_append, filter_cons_of_pos (sound.contains_iff.mpr known), whole] at inOrder
  rw [eq, filter_cons_of_pos (sound.contains_iff.mpr known), tail]
  exact (Located.sublist_after absent inOrder).cons_cons first

theorem note_sublist (sound : keys.Sound) {rows : List Row} (agrees : keys.contradicts rows = false)
    (nodup : (windowKeys rows).Nodup) (noted : keys.note rows = some next) : (windowKeys rows).Sublist next.list := by
  have inOrder := (sound.contradicts_iff rows).mp agrees
  by_cases all : (windowKeys rows).all keys.contains = true
  · rw [filter_eq_self.mpr (all_eq_true.mp all)] at inOrder
    unfold note at noted
    simp only [if_pos all] at noted
    injection noted with noted
    exact noted ▸ inOrder
  · cases found : (windowKeys rows).findIdx? keys.contains with
    | none =>
      have new : ∀ key ∈ windowKeys rows, key ∉ keys.list := by
        intro key mem
        apply sound.not_contains.mp
        rw [List.findIdx?_eq_none_iff.mp found key mem]
        exact Bool.false_ne_true
      unfold note at noted
      simp only [if_neg all, found] at noted
      injection noted with noted
      rw [← noted, pushes_list sound nodup new]
      exact sublist_append_right ..
    | some anchor =>
      obtain ⟨place, first, rest, anchored⟩ := sound.anchored found
      have parts : windowKeys rows = (windowKeys rows).take anchor ++ first :: rest := by
        rw [← anchored.split, take_append_drop]
      have inside := sound.lt anchored.place
      have pre : ((windowKeys rows).take anchor).Nodup := nodup.sublist (take_sublist ..)
      obtain ⟨mid, inserted, before⟩ := inserts_grow sound inside.le ((windowKeys rows).take anchor).reverse
      have list := inserts_list sound inside.le pre anchored.new inserted
      have after := anchored.sublist sound nodup inOrder list
      rw [anchored.note_eq all, inserted, bind_some] at noted
      have cursor : place + anchor = (keys.list.take place ++ (windowKeys rows).take anchor).length := by
        have early : anchor < (windowKeys rows).length := (List.getElem?_eq_some_iff.mp anchored.here).1
        rw [length_append, length_take, length_take, Nat.min_eq_left inside.le, Nat.min_eq_left early.le]
      rw [cursor] at noted
      have later : (first :: rest).Nodup := by
        rw [← anchored.split]
        exact nodup.sublist (drop_sublist ..)
      rw [parts]
      exact noteFrom_sublist before.sound (by rw [list, append_assoc]) later (sublist_append_right ..) after noted

end

/-- Noting a window never panics; the keys stay distinct and indexed, those held keep their order,
and the window's are held; one that agreed with the ledger and repeats no key agrees with it still;
the same window again changes nothing. -/
theorem note_keeps_exact {keys : Keys} (built : Built keys) (rows : List Row) :
    ∃ noted, keys.note rows = some noted ∧ noted.list.Nodup ∧
      (∀ key i, noted.positionOf key = some i ↔ noted.list[i]? = some key) ∧
      (∀ row ∈ rows, LedgerKey.new row.2.rk ∈ noted.list) ∧ keys.list.Sublist noted.list ∧
      (keys.contradicts rows = false → (windowKeys rows).Nodup →
        (windowKeys rows).Sublist noted.list ∧ noted.contradicts rows = false) ∧
      noted.note rows = some noted := by
  have sound := built.sound
  obtain ⟨noted, equal, grows⟩ := note_grows sound rows
  refine ⟨noted, equal, grows.sound.nodup, grows.sound.places, ?_, grows.kept, ?_, note_again grows.sound grows.held⟩
  · exact fun row member => grows.held _ (mem_map_of_mem member)
  · intro agrees nodup
    have inside := note_sublist sound agrees nodup equal
    exact ⟨inside, (grows.sound.contradicts_iff rows).mpr (filter_sublist.trans inside)⟩

theorem note_keeps_exact_repeated :
    ∃ noted, ((fromIter [.num 10, .num 11]).push (.num 12)).note
        [(0, ⟨⟨1⟩, 1, "7", "thumb"⟩), (1, ⟨⟨1⟩, 1, "7", "thumb"⟩), (2, ⟨⟨1⟩, 1, "11", "thumb"⟩), (3, ⟨⟨1⟩, 1, "20", "thumb"⟩)] = some noted ∧
      noted.list.Nodup ∧ [LedgerKey.num 10, .num 11, .num 12].Sublist noted.list := by
  obtain ⟨noted, equal, nodup, _, _, kept, _⟩ := note_keeps_exact (.push (.fromIter [.num 10, .num 11]) (.num 12))
    [(0, ⟨⟨1⟩, 1, "7", "thumb"⟩), (1, ⟨⟨1⟩, 1, "7", "thumb"⟩), (2, ⟨⟨1⟩, 1, "11", "thumb"⟩), (3, ⟨⟨1⟩, 1, "20", "thumb"⟩)]
  exact ⟨noted, equal, nodup, kept⟩

end Keys
end PlxNative.Paging
