import PlxNative.Deck.Reads

/-! A forward read of a lane whose edge row the listing holds within a page of where it was: the
lane's positions move with the edge, and the rows after it are taken in. -/
namespace PlxNative.Deck
open List
open ViewState (ServerId)
open Paging (clean card requestsPerAsk)

def CwItem.moved (by_ : Int) (row : CwItem) : CwItem := { row with position := (row.position + by_).toNat }

def Lane.moved (by_ : Int) (lane : Lane) : Lane :=
  { lane with
    rows := lane.rows.map (CwItem.moved by_)
    lo := (lane.lo + by_).toNat
    hi := (lane.hi + by_).toNat
    reach := (lane.reach + by_).toNat
    head := ⟨(lane.head.position + by_).toNat, lane.head.key⟩
    tail := ⟨(lane.tail.position + by_).toNat, lane.tail.key⟩ }

/-- Whether a shift leaves every position of the lane in the listing. -/
def Lane.Fits (by_ : Int) (lane : Lane) : Prop :=
  (∀ row ∈ lane.rows, 0 ≤ row.position + by_) ∧ 0 ≤ lane.lo + by_ ∧ 0 ≤ lane.hi + by_ ∧ 0 ≤ lane.reach + by_ ∧
    0 ≤ lane.head.position + by_ ∧ 0 ≤ lane.tail.position + by_

section
variable {by_ : Int} {lane : Lane}

theorem addSigned?_eq {n : Nat} (fits : 0 ≤ n + by_) : Lane.addSigned? n by_ = some (n + by_).toNat := if_pos fits

theorem shiftRows_eq (rows : List CwItem) (fits : ∀ row ∈ rows, 0 ≤ row.position + by_) :
    rows.mapM (Lane.shiftRow by_) = some (rows.map (CwItem.moved by_)) := by
  induction rows with
  | nil => rfl
  | cons row rest ih =>
    obtain ⟨first, others⟩ := forall_mem_cons.mp fits
    rw [mapM_cons, Lane.shiftRow, addSigned?_eq first, ih others]
    rfl

theorem shift_eq (fits : lane.Fits by_) : lane.shift by_ = some (lane.moved by_) := by
  obtain ⟨rows, lo, hi, reach, head, tail⟩ := fits
  rw [Lane.shift, shiftRows_eq _ rows, addSigned?_eq lo, addSigned?_eq hi, addSigned?_eq reach, addSigned?_eq head,
    addSigned?_eq tail]
  rfl

theorem fits_up (lane : Lane) (j : Nat) : lane.Fits j :=
  ⟨fun _ _ => by omega, by omega, by omega, by omega, by omega, by omega⟩

@[simp] theorem moved_zero (lane : Lane) : lane.moved (0 : Nat) = lane := by
  have eq : CwItem.moved 0 = id := by
    funext row
    simp [CwItem.moved]
  simp [Lane.moved, eq]

end
section
variable {items : List Metadata}

theorem key_place (distinct : (items.map Metadata.key).Nodup) {i j : Nat} {one two : Metadata} (first : items[i]? = some one)
    (second : items[j]? = some two) (eq : one.key = two.key) : i = j := by
  have left : (items.map Metadata.key)[i]? = some one.key := by rw [List.getElem?_map, first]; rfl
  have right : (items.map Metadata.key)[j]? = some two.key := by rw [List.getElem?_map, second]; rfl
  apply (List.getElem?_inj (List.getElem?_eq_some_iff.mp left).1 distinct).mp
  rw [left, right, eq]

theorem page_getElem? (items : List Metadata) (start count k : Nat) :
    ((items.drop start).take count)[k]? = if k < count then items[start + k]? else none := by
  rw [List.getElem?_take, List.getElem?_drop]

theorem findKey_spanned (distinct : (items.map Metadata.key).Nodup) {place : Nat} {item : Metadata}
    (there : items[place]? = some item) (start count : Nat) (low : start ≤ place) (high : place < start + count) (offset total : Int) :
    findKey ⟨offset, total, (items.drop start).take count⟩ item.key = some (place - start) := by
  have at_ : ((items.drop start).take count)[place - start]? = some item := by
    rw [page_getElem?, if_pos (by omega), Nat.add_sub_cancel' low, there]
  obtain ⟨bound, is⟩ := List.getElem?_eq_some_iff.mp at_
  apply List.findIdx?_eq_some_iff_getElem.mpr
  refine ⟨bound, decide_eq_true (congrArg Metadata.key is), ?_⟩
  intro j before equal
  have within : j < ((items.drop start).take count).length := Nat.lt_trans before bound
  have other : ((items.drop start).take count)[j]? = some ((items.drop start).take count)[j] := List.getElem?_eq_getElem within
  have count_ : j < count := lt_of_lt_of_le within (length_take_le ..)
  rw [page_getElem?, if_pos count_] at other
  have eq := key_place distinct other there (of_decide_eq_true equal)
  omega

end
section
variable {server : Server} {hidden : List Int} {lane : Lane} {place : Nat}

/-- The rows of the listing from a place on, as cards. -/
def Server.from_ (server : Server) (place : Nat) : List CwItem := cardsFrom server.sid (server.items.drop place) place

/-- The lane's last read row is at this place of the listing, and what it holds is before. -/
structure Edge (server : Server) (place : Nat) (lane : Lane) : Prop where
  scan : lane.scan = none
  there : ∃ item, server.items[place]? = some item ∧ item.key = lane.tail.key
  low : ∀ row ∈ lane.rows, row.position ≤ lane.tail.position
  high : lane.hi ≤ lane.tail.position + 1
  news : ∀ row ∈ lane.rows, row.m.rk ∉ (server.items.drop (place + 1)).map Metadata.key
  ended : lane.done = true → server.items.length = place + 1

theorem Edge.bound (edge : Edge server place lane) : place < server.items.length := by
  obtain ⟨item, there, -⟩ := edge.there
  exact (List.getElem?_eq_some_iff.mp there).1

theorem Edge.named (edge : Edge server place lane) (honest : Honest hidden server) : lane.tail.key.isEmpty = false := by
  obtain ⟨item, there, key⟩ := edge.there
  have nonempty := honest.named item (List.mem_of_getElem? there)
  rw [key] at nonempty
  cases empty : lane.tail.key.isEmpty with
  | true => exact absurd (String.isEmpty_iff.mp empty) nonempty
  | false => rfl

theorem readPage_list (server : Server) (start count : Nat) :
    readPage server.list start count = .ok ⟨start, server.total, (server.items.drop start).take count⟩ := if_pos rfl

/-- A lane with the same window and more rows at its end. -/
structure Grown (lane lane' : Lane) (fresh : List CwItem) : Prop where
  rows : lane'.rows = lane.rows ++ fresh
  lo : lane'.lo = lane.lo
  hi : lane'.hi = lane.hi
  head : lane'.head = lane.head
  placed : lane'.placed = lane.placed
  seen : lane'.seen = lane.seen
  reach : lane'.reach = lane.reach

theorem Grown.refl (lane : Lane) : Grown lane lane [] := ⟨(append_nil _).symm, rfl, rfl, rfl, rfl, rfl, rfl⟩

theorem Grown.trans {one two three : Lane} {first second : List CwItem} (before : Grown one two first)
    (after : Grown two three second) : Grown one three (first ++ second) :=
  ⟨by rw [after.rows, before.rows, append_assoc], after.lo.trans before.lo, after.hi.trans before.hi,
    after.head.trans before.head, after.placed.trans before.placed, after.seen.trans before.seen,
    after.reach.trans before.reach⟩

theorem joinPage_spec (pre fresh : List Metadata) (mc : MediaContainer) (start count : Nat) (edge : Edge server lane.tail.position lane)
    (honest : Honest hidden server) (page_ : mc.metadata = pre ++ fresh) (short_ : mc.metadata.length ≤ count)
    (spans : start + pre.length = lane.tail.position + 1)
    (follows : fresh <+: server.items.drop (lane.tail.position + 1)) :
    Grown lane (joinPage server.sid hidden lane mc start count true) (cardsFrom server.sid fresh (lane.tail.position + 1)) ∧
      (joinPage server.sid hidden lane mc start count true).scan = none ∧
      (fresh = [] → (joinPage server.sid hidden lane mc start count true).done = true ∧
        (joinPage server.sid hidden lane mc start count true).tail = lane.tail) ∧
      (∀ front item, fresh = front ++ [item] →
        (joinPage server.sid hidden lane mc start count true).tail = ⟨lane.tail.position + fresh.length, item.key⟩ ∧
        (joinPage server.sid hidden lane mc start count true).done =
          if 0 < mc.totalSize.toNat then decide (mc.totalSize.toNat ≤ lane.tail.position + fresh.length + 1)
          else decide (mc.metadata.length < count)) := by
  have behind : ∀ entry ∈ pre.zipIdx start, (true && decide (entry.2 ≤ lane.tail.position)) = true := by
    rintro ⟨item, at_⟩ mem
    have bound := snd_lt_add_of_mem_zipIdx mem
    have before : at_ ≤ lane.tail.position := by
      omega
    simp [before]
  have past : ∀ at_, lane.tail.position + 1 ≤ at_ → (true && decide (at_ ≤ lane.tail.position)) = false := by
    intro at_ low
    have beyond_ : ¬at_ ≤ lane.tail.position := by omega
    simp [beyond_]
  have mem : ∀ item ∈ fresh, item ∈ server.items := fun item inside => mem_of_mem_drop (follows.subset inside)
  have distinct : (fresh.map Metadata.key).Nodup :=
    (honest.distinct.sublist ((drop_sublist ..).map _)).sublist (follows.sublist.map _)
  have news : ∀ held ∈ lane.rows, held.m.rk ∉ fresh.map Metadata.key := fun held inside known =>
    edge.news held inside ((follows.map _).subset known)
  have fold : ((mc.metadata.take count).zipIdx start).foldl
      (joinRow server.sid hidden (fun position => true && decide (position ≤ lane.tail.position))) (lane.rows, none) =
      (fresh.zipIdx (lane.tail.position + 1)).foldl
        (joinRow server.sid hidden (fun position => true && decide (position ≤ lane.tail.position))) (lane.rows, none) := by
    rw [take_of_length_le short_, page_, zipIdx_append, foldl_append, join_past (pre.zipIdx start) _ behind, spans]
  have rows := join_rows fresh (lane.tail.position + 1) (lane.rows, none) past
    (fun item inside => honest.shows item (mem item inside)) distinct news
  have shape : joinPage server.sid hidden lane mc start count true = closePage lane mc count
      ((fresh.zipIdx (lane.tail.position + 1)).foldl
        (joinRow server.sid hidden (fun position => true && decide (position ≤ lane.tail.position))) (lane.rows, none)) :=
    congrArg (closePage lane mc count) fold
  rw [shape]
  rcases eq_nil_or_concat fresh with rfl | ⟨front, item, rfl⟩
  · refine ⟨⟨(append_nil _).symm, rfl, rfl, rfl, rfl, rfl, rfl⟩, edge.scan, fun _ => ⟨rfl, rfl⟩, ?_⟩
    intro front item eq
    simp at eq
  · rw [concat_eq_append] at rows ⊢
    have joined : ((front ++ [item]).zipIdx (lane.tail.position + 1)).foldl
        (joinRow server.sid hidden (fun position => true && decide (position ≤ lane.tail.position))) (lane.rows, none) =
        (lane.rows ++ cardsFrom server.sid (front ++ [item]) (lane.tail.position + 1),
          some ⟨lane.tail.position + 1 + front.length, item.key⟩) :=
      Prod.ext rows (join_last front item _ _ past)
    rw [joined]
    refine ⟨⟨rfl, rfl, rfl, rfl, rfl, rfl, rfl⟩, edge.scan, fun eq => by simp at eq, ?_⟩
    intro front' item' eq
    obtain ⟨rfl, rfl⟩ := append_inj' eq rfl |>.imp id singleton_inj.mp
    have place_ : lane.tail.position + 1 + front.length = lane.tail.position + (front ++ [item]).length := by
      simp only [length_append, length_singleton]
      omega
    rw [← place_]
    exact ⟨rfl, rfl⟩

theorem Edge.moved {by_ : Int} (edge : Edge server place lane) (fits : lane.Fits by_) : Edge server place (lane.moved by_) := by
  obtain ⟨rows, lo, hi, reach, head, tail⟩ := fits
  refine ⟨edge.scan, edge.there, ?_, ?_, ?_, edge.ended⟩
  · intro row mem
    obtain ⟨was, held, rfl⟩ := mem_map.mp mem
    have low := edge.low was held
    change (was.position + by_).toNat ≤ (lane.tail.position + by_).toNat
    omega
  · have high := edge.high
    change (lane.hi + by_).toNat ≤ (lane.tail.position + by_).toNat + 1
    omega
  · intro row mem
    obtain ⟨was, held, rfl⟩ := mem_map.mp mem
    exact edge.news was held

theorem from_split (server : Server) (place n : Nat) :
    cardsFrom server.sid ((server.items.drop place).take n) place ++
      server.from_ (place + ((server.items.drop place).take n).length) = server.from_ place := by
  unfold Server.from_
  rw [← drop_drop, ← cardsFrom_append]
  rw [length_take]
  rcases Nat.le_total n (server.items.drop place).length with few | all
  · rw [Nat.min_eq_left few, take_append_drop]
  · rw [Nat.min_eq_right all, drop_length, append_nil, take_of_length_le all]

theorem Edge.grown {lane' : Lane} {n : Nat} (edge : Edge server lane.tail.position lane) (honest : Honest hidden server)
    (grown : Grown lane lane'
      (cardsFrom server.sid ((server.items.drop (lane.tail.position + 1)).take n) (lane.tail.position + 1)))
    (scan : lane'.scan = none)
    (there : ∃ item, server.items[lane'.tail.position]? = some item ∧ item.key = lane'.tail.key)
    (place_ : lane'.tail.position = lane.tail.position + ((server.items.drop (lane.tail.position + 1)).take n).length)
    (ended : lane'.done = true → server.items.length = lane'.tail.position + 1) : Edge server lane'.tail.position lane' := by
  have further : server.items.drop (lane'.tail.position + 1) = (server.items.drop (lane.tail.position + 1)).drop
      ((server.items.drop (lane.tail.position + 1)).take n).length := by
    rw [drop_drop, place_]
    congr 1
    omega
  refine ⟨scan, there, ?_, ?_, ?_, ended⟩
  · rw [grown.rows]
    refine forall_mem_append.mpr ⟨?_, ?_⟩
    · intro row mem
      have low := edge.low row mem
      omega
    · intro row mem
      have bound := cardsFrom_bounds mem
      omega
  · have high := edge.high
    rw [grown.hi]
    omega
  · rw [grown.rows, further]
    refine forall_mem_append.mpr ⟨?_, ?_⟩
    · intro row mem known
      exact edge.news row mem (((drop_sublist ..).map _).subset known)
    · intro row mem known
      have key : row.m.rk ∈ ((server.items.drop (lane.tail.position + 1)).take n).map Metadata.key := by
        have keys : (cardsFrom server.sid ((server.items.drop (lane.tail.position + 1)).take n) (lane.tail.position + 1)).map
          (·.m.rk) = _ := cardsFrom_keys _ _
        rw [← keys]
        exact mem_map_of_mem mem
      have distinct := honest.distinct.sublist ((drop_sublist (lane.tail.position + 1) server.items).map Metadata.key)
      have split : server.items.drop (lane.tail.position + 1) = (server.items.drop (lane.tail.position + 1)).take n ++
          (server.items.drop (lane.tail.position + 1)).drop ((server.items.drop (lane.tail.position + 1)).take n).length := by
        have whole := prefix_iff_eq_append.mp (List.take_prefix n (server.items.drop (lane.tail.position + 1)))
        exact whole.symm
      rw [split, map_append] at distinct
      exact (nodup_append.mp distinct).2.2 _ key _ known rfl

theorem readOn_found (honest : Honest hidden server) {j : Nat} (edge : Edge server (lane.tail.position + j) lane)
    (near : j < page ∨ j = page ∧ server.items.length = lane.tail.position + j + 1) :
    ∃ lane' fresh, readOn server.sid hidden server.list lane = .ok lane' ∧ Grown (lane.moved j) lane' fresh ∧
      Edge server lane'.tail.position lane' ∧
      fresh ++ server.from_ (lane'.tail.position + 1) = server.from_ (lane.tail.position + j + 1) ∧
      (lane'.done = true ∨ fresh.length = page - j) := by
  obtain ⟨item, there, key⟩ := edge.there
  have bound := edge.bound
  have tailIs : (lane.moved j).tail.position = lane.tail.position + j := by
    change (lane.tail.position + (j : Int)).toNat = _
    omega
  have movedEdge : Edge server (lane.moved j).tail.position (lane.moved j) := by
    exact edge.moved (fits_up lane j)
  have anchored : anchorAhead server.list lane
      ⟨lane.tail.position, server.total, (server.items.drop lane.tail.position).take (page + 1)⟩ = .ok (lane.moved j, true) := by
    have found := findKey_spanned honest.distinct there lane.tail.position (page + 1) (by omega) (by omega)
    rw [key, Nat.add_sub_cancel_left] at found
    unfold anchorAhead
    rw [found]
    cases j with
    | zero => rw [moved_zero]
    | succ j =>
      simp only
      rw [shift_eq (fits_up lane (j + 1))]
      rfl
  have reading : readOn server.sid hidden server.list lane = .ok (joinPage server.sid hidden (lane.moved j)
      ⟨lane.tail.position, server.total, (server.items.drop lane.tail.position).take (page + 1)⟩ lane.tail.position (page + 1) true) := by
    unfold readOn
    rw [edge.scan, edge.named honest]
    simp only [Bool.not_false, if_true, readPage_list]
    change (anchorAhead server.list lane _).map _ = _
    rw [anchored]
    rfl
  have split : (server.items.drop lane.tail.position).take (page + 1) = (server.items.drop lane.tail.position).take (j + 1) ++
      (server.items.drop (lane.tail.position + j + 1)).take (page - j) := by
    have apart : page + 1 = (j + 1) + (page - j) := by omega
    rw [apart, take_add, drop_drop, Nat.add_assoc lane.tail.position]
  have preLength : ((server.items.drop lane.tail.position).take (j + 1)).length = j + 1 := by
    rw [length_take, length_drop]
    omega
  have spec := joinPage_spec ((server.items.drop lane.tail.position).take (j + 1))
    ((server.items.drop (lane.tail.position + j + 1)).take (page - j))
    ⟨lane.tail.position, server.total, (server.items.drop lane.tail.position).take (page + 1)⟩
    lane.tail.position (page + 1) movedEdge honest split (length_take_le ..)
    (by rw [preLength, tailIs]; omega) (by rw [tailIs]; exact List.take_prefix ..)
  obtain ⟨grown, scan, none_, some_⟩ := spec
  generalize joinPage server.sid hidden (lane.moved j) _ lane.tail.position (page + 1) true = lane' at reading grown scan none_ some_
  have freshLength : ((server.items.drop (lane.tail.position + j + 1)).take (page - j)).length =
      min (page - j) (server.items.length - (lane.tail.position + j + 1)) := by
    rw [length_take, length_drop]
  rw [← tailIs] at grown none_ some_ freshLength bound near ⊢
  have places : lane'.tail.position = (lane.moved j).tail.position +
        ((server.items.drop ((lane.moved j).tail.position + 1)).take (page - j)).length ∧
      (∃ item, server.items[lane'.tail.position]? = some item ∧ item.key = lane'.tail.key) ∧
      (lane'.done = true → server.items.length = lane'.tail.position + 1) ∧
      (lane'.done = true ∨ ((server.items.drop ((lane.moved j).tail.position + 1)).take (page - j)).length = page - j) := by
    rcases eq_nil_or_concat ((server.items.drop ((lane.moved j).tail.position + 1)).take (page - j)) with empty | ⟨front, last, shape⟩
    · obtain ⟨done, tail⟩ := none_ empty
      rw [empty, length_nil] at freshLength
      rw [tail, empty]
      refine ⟨rfl, movedEdge.there, fun _ => ?_, .inl done⟩
      omega
    · rw [concat_eq_append] at shape
      obtain ⟨tail, done⟩ := some_ front last shape
      have lengths := congrArg List.length shape
      rw [length_append, length_singleton] at lengths
      have lastThere : server.items[(lane.moved j).tail.position +
          ((server.items.drop ((lane.moved j).tail.position + 1)).take (page - j)).length]? = some last := by
        have at_ : ((server.items.drop ((lane.moved j).tail.position + 1)).take (page - j))[front.length]? = some last := by
          rw [shape, List.getElem?_append_right le_rfl, Nat.sub_self]
          rfl
        rw [page_getElem?] at at_
        split at at_
        · rw [lengths, ← at_]
          congr 1
          omega
        · cases at_
      have closes : lane'.done = true ↔ if server.sendsTotal
          then server.items.length ≤ (lane.moved j).tail.position + (front.length + 1) + 1
          else j + 1 + (front.length + 1) < page + 1 := by
        have positive : 0 < server.items.length := by omega
        rw [done, split, length_append, preLength, ← tailIs, lengths]
        cases sends : server.sendsTotal <;> simp [Server.total, sends, positive]
      refine ⟨by rw [tail], ⟨last, ?_, by rw [tail]⟩, ?_, ?_⟩
      · rw [tail]
        exact lastThere
      · intro closed
        have enough := closes.mp closed
        rw [tail]
        change server.items.length = (lane.moved j).tail.position + _ + 1
        split at enough <;> omega
      · by_cases closed : lane'.done = true
        · exact .inl closed
        · have more := mt closes.mpr closed
          split at more <;> omega
  obtain ⟨tail, is, ended, full⟩ := places
  refine ⟨lane', _, reading, grown, movedEdge.grown honest grown scan is tail ended, ?_, ?_⟩
  · have rest := from_split server ((lane.moved j).tail.position + 1) (page - j)
    rw [tail]
    rw [Nat.add_right_comm] at rest
    exact rest
  · rw [cardsFrom_length]
    exact full

theorem Grown.ahead {lane' : Lane} {fresh : List CwItem} (grown : Grown lane lane' fresh)
    (past : ∀ row ∈ fresh, lane.hi ≤ row.position) : lane'.ahead = lane.ahead + fresh.length := by
  rw [Lane.ahead, grown.rows, grown.hi, filter_append, length_append]
  congr 1
  exact congrArg List.length (filter_eq_self.mpr (fun row mem => decide_eq_true (past row mem)))

theorem readWithin_spec (honest : Honest hidden server) (n left : Nat) (lane : Lane)
    (edge : Edge server lane.tail.position lane) (enough : n ≤ lane.ahead + page * left) :
    ∃ lane' fresh, readWithin server.sid hidden server.list n left lane = .ok lane' ∧ Grown lane lane' fresh ∧
      Edge server lane'.tail.position lane' ∧
      fresh ++ server.from_ (lane'.tail.position + 1) = server.from_ (lane.tail.position + 1) ∧
      (lane'.done = true ∨ n ≤ lane'.ahead) := by
  induction left generalizing lane with
  | zero => exact ⟨lane, [], rfl, .refl lane, edge, rfl, .inr (by simpa using enough)⟩
  | succ left ih =>
    unfold readWithin
    split
    · have here : Edge server (lane.tail.position + 0) lane := edge
      obtain ⟨read, fresh, reading, grown, moved, rest, full⟩ := readOn_found honest here (.inl (by decide))
      rw [moved_zero] at grown
      have past : ∀ row ∈ fresh, lane.hi ≤ row.position := by
        intro row mem
        have inside : row ∈ server.from_ (lane.tail.position + 1) := rest ▸ mem_append_left _ mem
        have bound := cardsFrom_bounds inside
        have high := edge.high
        omega
      have count := grown.ahead past
      rcases full with over_ | page_
      · refine ⟨read, fresh, ?_, grown, moved, rest, .inl over_⟩
        rw [reading]
        change readWithin server.sid hidden server.list n left read = _
        cases left with
        | zero => rfl
        | succ left => simp [readWithin, over_]
      · obtain ⟨final, later, going, further, final_, after, stocked⟩ := ih read moved (by
          rw [Nat.mul_succ] at enough
          omega)
        refine ⟨final, fresh ++ later, ?_, grown.trans further, final_, ?_, stocked⟩
        · rw [reading]
          exact going
        · rw [append_assoc, after, rest]
    · rename_i still
      refine ⟨lane, [], rfl, .refl lane, edge, rfl, ?_⟩
      simp only [Bool.and_eq_true, decide_eq_true_eq, Bool.not_eq_eq_eq_not, Bool.not_true, not_and, Bool.not_eq_false] at still
      by_cases few : lane.ahead < n
      · exact .inl (still few)
      · exact .inr (by omega)

end
end PlxNative.Deck
