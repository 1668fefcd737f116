import PlxNative.Lib.KeyOrder
import PlxNative.Paging.Window

/-! What one page adds to a window, in either direction, and what a shift of the window
keeps. -/
namespace PlxNative.Paging
open List Option Nat
open ViewState (ServerId)

/-- The rows of a window and the listing positions it covers. -/
structure Window (rows : List Row) (offset end_ : Nat) : Prop where
  ascending : KeyOrder.Ascending Prod.fst rows
  inside : ∀ row ∈ rows, offset ≤ row.1 ∧ row.1 < end_
  distinct : rows.Pairwise (fun a b => a.2.rk ≠ b.2.rk)
  room : rows.length ≤ maxShelfItems
  bounds : offset ≤ end_

/-- An item that may be shown, as its card. -/
def Showable (sid : ServerId) (hidden : List Int) (item : Metadata) (card : PmsMovie) : Prop :=
  shelfCard item sid = some card ∧ card.sec ∉ hidden

theorem shelfCard_rk {sid : ServerId} {item : Metadata} {card : PmsMovie} (accepted : shelfCard item sid = some card) :
    card.rk = clean item.ratingKey := by
  unfold shelfCard at accepted
  split at accepted
  · cases accepted
  · dsimp only at accepted
    split at accepted
    · cases accepted
    · cases accepted
      rfl

section
variable {sid : ServerId} {hidden : List Int} {keepFrom position : Nat} {items : List Metadata}
  {rows added : List Row} {read : Nat}

/-- The first `read` items from `position` on were read, and `added` are their cards. -/
structure Filled (sid : ServerId) (hidden : List Int) (keepFrom position : Nat) (items : List Metadata)
    (rows added : List Row) (read : Nat) : Prop where
  fits : read ≤ items.length
  full : read < items.length → (rows ++ added).length = maxShelfItems
  listed : ∀ row ∈ added, keepFrom ≤ row.1 ∧ ∃ i, row.1 = position + i ∧ i < read ∧
    ∃ item, items[i]? = some item ∧ Showable sid hidden item row.2
  ascending : KeyOrder.Ascending Prod.fst added
  distinct : rows.Pairwise (fun a b => a.2.rk ≠ b.2.rk) →
    (rows ++ added).Pairwise (fun a b => a.2.rk ≠ b.2.rk)
  room : rows.length < maxShelfItems → (rows ++ added).length ≤ maxShelfItems
  covers : ∀ i item card, i < read → keepFrom ≤ position + i → items[i]? = some item →
    Showable sid hidden item card → (position + i, card) ∈ added ∨
      ∃ row ∈ rows ++ added, row.2.rk = card.rk ∧ (row ∈ rows ∨ row.1 < position + i)

theorem Filled.nil : Filled sid hidden keepFrom position [] rows [] 0 := by
  refine ⟨Nat.le_refl _, ?_, ?_, .nil, ?_, ?_, ?_⟩
  · intro less
    cases less
  · intro row mem
    cases mem
  · rw [append_nil]
    exact id
  · rw [append_nil]
    exact Nat.le_of_lt
  · intro i item card less
    cases less

variable {item : Metadata} {rest : List Metadata}

theorem Filled.skip (h : Filled sid hidden keepFrom (position + 1) rest rows added read)
    (shown : keepFrom ≤ position → ∀ card, Showable sid hidden item card →
      ∃ row ∈ rows, row.2.rk = card.rk) :
    Filled sid hidden keepFrom position (item :: rest) rows added (read + 1) := by
  refine ⟨succ_le_succ h.fits, ?_, ?_, h.ascending, h.distinct, h.room, ?_⟩
  · intro less
    exact h.full (lt_of_succ_lt_succ less)
  · intro row mem
    obtain ⟨from_, i, place, less, its⟩ := h.listed row mem
    exact ⟨from_, i + 1, by omega, succ_lt_succ less, its⟩
  · intro i item' card less from_ its showable
    cases i with
    | zero =>
      cases its
      obtain ⟨row, mem, eq⟩ := shown from_ card showable
      exact .inr ⟨row, mem_append_left _ mem, eq, .inl mem⟩
    | succ i =>
      have place : position + (i + 1) = position + 1 + i := by omega
      rw [place] at from_ ⊢
      exact h.covers i item' card (lt_of_succ_lt_succ less) from_ its showable

theorem Filled.push {card : PmsMovie} (from_ : keepFrom ≤ position)
    (showable : Showable sid hidden item card) (fresh : ∀ row ∈ rows, row.2.rk ≠ card.rk)
    (h : Filled sid hidden keepFrom (position + 1) rest (rows ++ [(position, card)]) added read)
    (room : rows.length < maxShelfItems → (rows ++ (position, card) :: added).length ≤ maxShelfItems) :
    Filled sid hidden keepFrom position (item :: rest) rows ((position, card) :: added) (read + 1) := by
  have eq : rows ++ (position, card) :: added = rows ++ [(position, card)] ++ added := by
    rw [append_assoc, singleton_append]
  refine ⟨succ_le_succ h.fits, ?_, ?_, ?_, ?_, room, ?_⟩
  · intro less
    rw [eq]
    exact h.full (lt_of_succ_lt_succ less)
  · intro row mem
    rcases mem_cons.mp mem with rfl | later
    · exact ⟨from_, 0, rfl, succ_pos _, item, rfl, showable⟩
    · obtain ⟨above, i, place, less, its⟩ := h.listed row later
      exact ⟨above, i + 1, by omega, succ_lt_succ less, its⟩
  · refine pairwise_cons.mpr ⟨?_, h.ascending⟩
    intro row later
    obtain ⟨-, i, place, -⟩ := h.listed row later
    omega
  · intro distinct
    rw [eq]
    refine h.distinct (pairwise_append.mpr ⟨distinct, pairwise_singleton _ _, ?_⟩)
    intro a mem b new
    rw [mem_singleton.mp new]
    exact fresh a mem
  · intro i item' card' less above its its_card
    cases i with
    | zero =>
      cases its
      have one : card' = card := Option.some.inj (its_card.1.symm.trans showable.1)
      rw [one]
      exact .inl (mem_cons_self ..)
    | succ i =>
      have place : position + (i + 1) = position + 1 + i := by omega
      rw [place] at above ⊢
      rcases h.covers i item' card' (lt_of_succ_lt_succ less) above its its_card with new | ⟨row, mem, key, old⟩
      · exact .inl (mem_cons_of_mem _ new)
      · refine .inr ⟨row, by rw [eq]; exact mem, key, ?_⟩
        rcases old with old | earlier
        · rcases mem_append.mp old with first | this
          · exact .inl first
          · rw [mem_singleton.mp this]
            exact .inr (by change position < _; omega)
        · exact .inr earlier

theorem fillForward_filled (sid : ServerId) (hidden : List Int) (keepFrom position : Nat)
    (items : List Metadata) (rows : List Row) (end_ : Nat) :
    ∃ added read, Filled sid hidden keepFrom position items rows added read ∧
      fillForward sid hidden keepFrom position items rows end_ =
        (rows ++ added, if read = 0 then end_ else position + read) := by
  induction items generalizing position rows end_ with
  | nil => exact ⟨[], 0, .nil, by simp [fillForward]⟩
  | cons item rest ih =>
    -- a skipped item leaves the rows and moves the end
    have skipped : (keepFrom ≤ position → ∀ card, Showable sid hidden item card →
          ∃ row ∈ rows, row.2.rk = card.rk) →
        ∃ added read, Filled sid hidden keepFrom position (item :: rest) rows added read ∧
          fillForward sid hidden keepFrom (position + 1) rest rows (position + 1) =
            (rows ++ added, if read = 0 then end_ else position + read) := by
      intro shown
      obtain ⟨added, read, filled, result⟩ := ih (position + 1) rows (position + 1)
      refine ⟨added, read + 1, filled.skip shown, ?_⟩
      rw [result, if_neg (succ_ne_zero _)]
      split
      · rename_i none_read
        rw [none_read]
      · rw [Nat.add_assoc, Nat.add_comm 1]
    unfold fillForward
    split
    · rename_i below
      exact skipped (fun above => absurd below (Nat.not_lt.mpr above))
    · rename_i above
      cases parsed : shelfCard item sid with
      | none =>
        refine skipped ?_
        rintro - card' ⟨its, -⟩
        rw [parsed] at its
        cases its
      | some card =>
        dsimp only
        split
        · rename_i known
          refine skipped ?_
          rintro - card' ⟨its, visible⟩
          have one : card' = card := Option.some.inj (its.symm.trans parsed)
          rw [one] at visible ⊢
          exact known.resolve_left visible
        · rename_i unknown
          obtain ⟨visible, fresh⟩ := not_or.mp unknown
          have showable : Showable sid hidden item card := ⟨parsed, visible⟩
          have apart : ∀ row ∈ rows, row.2.rk ≠ card.rk :=
            fun row mem eq => fresh ⟨row, mem, eq⟩
          split
          · rename_i full
            refine ⟨[(position, card)], 1, ?_, by simp⟩
            have stopped : Filled sid hidden keepFrom (position + 1) rest (rows ++ [(position, card)]) [] 0 := by
              refine ⟨Nat.zero_le _, ?_, ?_, .nil, ?_, ?_, ?_⟩
              · intro _
                rw [append_nil]
                exact full
              · intro row mem
                cases mem
              · rw [append_nil]
                exact id
              · intro less
                rw [append_nil]
                exact Nat.le_of_lt less
              · intro i item card less
                cases less
            exact Filled.push (Nat.not_lt.mp above) showable apart stopped (fun _ => Nat.le_of_eq full)
          · rename_i not_full
            obtain ⟨added, read, filled, result⟩ :=
              ih (position + 1) (rows ++ [(position, card)]) (position + 1)
            refine ⟨(position, card) :: added, read + 1, ?_, ?_⟩
            · refine Filled.push (Nat.not_lt.mp above) showable apart filled ?_
              intro less
              have within := filled.room (by
                rw [length_append, length_singleton] at not_full ⊢
                omega)
              rw [append_assoc] at within
              exact within
            · rw [result, if_neg (succ_ne_zero _), append_assoc, singleton_append]
              split
              · rename_i none_read
                rw [none_read]
              · rw [Nat.add_assoc, Nat.add_comm 1]

end

section
variable {sid : ServerId} {hidden : List Int} {rows fresh : List Row} {keepFrom keepTo position : Nat}

/-- The cards gathered so far, before `rows`. -/
structure Gathered (hidden : List Int) (rows : List Row) (keepFrom keepTo position : Nat) (fresh : List Row) :
    Prop where
  ascending : KeyOrder.Ascending Prod.fst fresh
  inside : ∀ row ∈ fresh, keepFrom ≤ row.1 ∧ row.1 < keepTo ∧ row.1 < position
  shown : ∀ row ∈ fresh, row.2.sec ∉ hidden
  distinct : fresh.Pairwise (fun a b => a.2.rk ≠ b.2.rk)
  apart : ∀ a ∈ fresh, ∀ b ∈ rows, a.2.rk ≠ b.2.rk

theorem Gathered.nil : Gathered hidden rows keepFrom keepTo position [] := by
  refine ⟨.nil, ?_, ?_, .nil, ?_⟩
  all_goals
    intro row mem
    cases mem

theorem Gathered.next (h : Gathered hidden rows keepFrom keepTo position fresh) :
    Gathered hidden rows keepFrom keepTo (position + 1) fresh := by
  refine ⟨h.ascending, ?_, h.shown, h.distinct, h.apart⟩
  intro row mem
  obtain ⟨low, high, before⟩ := h.inside row mem
  exact ⟨low, high, lt_succ_of_lt before⟩

theorem Gathered.push (h : Gathered hidden rows keepFrom keepTo position fresh) {card : PmsMovie}
    (low : keepFrom ≤ position) (high : position < keepTo) (visible : card.sec ∉ hidden)
    (new : ∀ row ∈ rows ++ fresh, row.2.rk ≠ card.rk) :
    Gathered hidden rows keepFrom keepTo (position + 1) (fresh ++ [(position, card)]) := by
  refine ⟨h.ascending.snoc (fun row mem => (h.inside row mem).2.2), ?_, ?_, ?_, ?_⟩
  · exact forall_mem_append.mpr ⟨h.next.inside, forall_mem_singleton.mpr ⟨low, high, lt_succ_self _⟩⟩
  · exact forall_mem_append.mpr ⟨h.shown, forall_mem_singleton.mpr visible⟩
  · refine pairwise_append.mpr ⟨h.distinct, pairwise_singleton _ _, ?_⟩
    intro a old b last
    rw [mem_singleton.mp last]
    exact new a (mem_append_right _ old)
  · intro a mem b held
    rcases mem_append.mp mem with old | last
    · exact h.apart a old b held
    · rw [mem_singleton.mp last]
      exact (new b (mem_append_left _ held)).symm

theorem fillBackward_gathered (items : List Metadata)
    (h : Gathered hidden rows keepFrom keepTo position fresh) :
    Gathered hidden rows keepFrom keepTo (position + items.length)
      (fillBackward sid hidden rows keepFrom keepTo position items fresh) := by
  induction items generalizing position fresh with
  | nil => exact h
  | cons item rest ih =>
    have place : position + (item :: rest).length = position + 1 + rest.length := by
      rw [length_cons]
      omega
    rw [place]
    unfold fillBackward
    split
    · exact ih h.next
    · rename_i between
      obtain ⟨low, high⟩ := not_or.mp between
      cases shelfCard item sid with
      | none => exact ih h.next
      | some card =>
        dsimp only
        split
        · exact ih h.next
        · rename_i unknown
          obtain ⟨visible, new⟩ := not_or.mp unknown
          exact ih (h.push (Nat.not_lt.mp low) (Nat.not_le.mp high) visible
            (fun row mem eq => new ⟨row, mem, eq⟩))

theorem Gathered.window {offset end_ : Nat} (h : Gathered hidden rows keepFrom keepTo position fresh)
    (window : Window rows offset end_) (below : keepTo ≤ offset) (from_ : keepFrom ≤ keepTo)
    (room : keepTo - keepFrom + rows.length ≤ maxShelfItems) : Window (fresh ++ rows) keepFrom end_ := by
  -- ascending positions in a range are no more than the range holds
  have size : fresh.length ≤ keepTo - keepFrom := by
    have nodup : (fresh.map Prod.fst).Nodup := by
      refine pairwise_map.mpr (List.Pairwise.imp ?_ h.ascending)
      intro a b less
      exact Nat.ne_of_lt less
    have within : fresh.map Prod.fst ⊆ List.range' keepFrom (keepTo - keepFrom) := by
      intro position mem
      obtain ⟨row, there, rfl⟩ := mem_map.mp mem
      obtain ⟨low, high, -⟩ := h.inside row there
      rw [List.mem_range'_1]
      omega
    have count := (subperm_of_subset nodup within).length_le
    rw [length_map, length_range'] at count
    exact count
  refine ⟨?_, ?_, ?_, ?_, ?_⟩
  · refine pairwise_append.mpr ⟨h.ascending, window.ascending, ?_⟩
    intro a new b old
    have high := (h.inside a new).2.1
    have low := (window.inside b old).1
    omega
  · intro row mem
    rcases mem_append.mp mem with new | old
    · obtain ⟨low, high, -⟩ := h.inside row new
      have bounds := window.bounds
      omega
    · obtain ⟨low, high⟩ := window.inside row old
      omega
  · exact pairwise_append.mpr ⟨h.distinct, window.distinct, h.apart⟩
  · rw [length_append]
    omega
  · have bounds := window.bounds
    omega

end

section

def moved (by_ : Int) (row : Row) : Row := ((row.1 + by_).toNat, row.2)

variable {by_ : Int}

theorem mapM_shiftRow {rows rows' : List Row} (shifted : rows.mapM (shiftRow by_) = some rows') :
    rows' = rows.map (moved by_) ∧ ∀ row ∈ rows, 0 ≤ row.1 + by_ := by
  induction rows generalizing rows' with
  | nil =>
    cases shifted
    refine ⟨rfl, ?_⟩
    intro row mem
    cases mem
  | cons row rest ih =>
    simp only [mapM_cons, bind_eq_bind, bind_eq_some_iff, Option.pure_def,
      Option.some.injEq, shiftRow, map_eq_some_iff] at shifted
    obtain ⟨_, ⟨position, place, rfl⟩, later, its, rfl⟩ := shifted
    obtain ⟨rfl, above⟩ := ih its
    have exact_ := Usize.addSigned?_eq_some place
    refine ⟨?_, ?_⟩
    · rw [map_cons, moved, ← exact_, Int.toNat_natCast]
    · intro row' mem
      rcases mem_cons.mp mem with rfl | tail
      · omega
      · exact above row' tail

theorem shift_eq_some {p q : Progress} (shifted : shift p by_ = some q) :
    q = { p with rows := p.rows.map (moved by_), offset := q.offset, end_ := q.end_ } ∧
      (q.offset : Int) = p.offset + by_ ∧ (q.end_ : Int) = p.end_ + by_ ∧
      ∀ row ∈ p.rows, 0 ≤ row.1 + by_ := by
  simp only [shift, bind_eq_bind, bind_eq_some_iff, Option.pure_def, Option.some.injEq] at shifted
  obtain ⟨rows, its, offset, low, end_, high, rfl⟩ := shifted
  obtain ⟨rfl, above⟩ := mapM_shiftRow its
  exact ⟨rfl, Usize.addSigned?_eq_some low, Usize.addSigned?_eq_some high, above⟩

theorem Window.moved {rows : List Row} {offset end_ offset' end_' : Nat}
    (window : Window rows offset end_) (low : (offset' : Int) = offset + by_)
    (high : (end_' : Int) = end_ + by_) : Window (rows.map (Paging.moved by_)) offset' end_' := by
  refine ⟨?_, ?_, ?_, ?_, ?_⟩
  · refine pairwise_map.mpr (List.Pairwise.imp_of_mem ?_ window.ascending)
    intro a b one other less
    have inside := window.inside a one
    change (a.1 + by_).toNat < (b.1 + by_).toNat
    omega
  · intro row mem
    obtain ⟨was, there, rfl⟩ := mem_map.mp mem
    have inside := window.inside was there
    change offset' ≤ (was.1 + by_).toNat ∧ (was.1 + by_).toNat < end_'
    omega
  · exact pairwise_map.mpr (List.Pairwise.imp (fun apart => apart) window.distinct)
  · rw [length_map]
    exact window.room
  · have bounds := window.bounds
    omega

end
end PlxNative.Paging
