import PlxNative.Deck.Moves
import PlxNative.Lib.Reel

/-! A deck over one sorted sequence of cards. Each lane holds its part of what is shown, with some
of its part before and some after; a move of the deck then moves the window over the sequence. -/
namespace PlxNative.Deck
open List Bool Lane
open ViewState (ServerId)
open Paging (maxShelfItems)
open Std (TransCmp LawfulEqCmp OrientedCmp)

theorem order_eq_lex : order = compareLex (compareLex (compareLex (fun a b => compareOn CwItem.lastViewedAt b a)
    (compareOn (fun row => row.m.sid.raw))) (compareOn CwItem.position)) (compareOn (fun row => row.m.rk)) := rfl

instance : TransCmp order := by
  rw [order_eq_lex]
  infer_instance

theorem order_swap (a b : CwItem) : order b a = (order a b).swap := OrientedCmp.eq_swap

variable {a b : CwItem}

theorem order_gt_iff : order b a = .gt ↔ order a b = .lt := by
  rw [order_swap a b, Ordering.swap_eq_gt]

theorem order_self (a : CwItem) : order a a = .eq := Std.ReflCmp.compare_self

theorem order_tie (tie : order a b = .eq) : a.m.sid = b.m.sid ∧ a.position = b.position := by
  simp only [order, Ordering.then_eq_eq] at tie
  obtain ⟨⟨⟨-, sid⟩, position⟩, -⟩ := tie
  refine ⟨?_, LawfulEqCmp.eq_of_compare position⟩
  cases first : a.m.sid with
  | mk one =>
    cases second : b.m.sid with
    | mk two =>
      rw [first, second] at sid
      exact congrArg ServerId.mk (LawfulEqCmp.eq_of_compare sid)

theorem order_within (same : a.m.sid = b.m.sid) (viewed : b.lastViewedAt ≤ a.lastViewedAt)
    (before : a.position < b.position) : order a b = .lt := by
  have place : compare a.position b.position = .lt := Nat.compare_eq_lt.mpr before
  have server : compare a.m.sid.raw b.m.sid.raw = .eq := by
    rw [same]
    exact Std.ReflCmp.compare_self
  rcases Int.lt_or_eq_of_le viewed with newer | even
  · have first : compare b.lastViewedAt a.lastViewedAt = .lt := Int.compare_eq_lt.mpr newer
    simp [order, first]
  · have first : compare b.lastViewedAt a.lastViewedAt = .eq := Int.compare_eq_eq.mpr even
    simp [order, first, server, place]

def le (a b : CwItem) : Bool := (order a b).isLE

theorem le_trans (a b c : CwItem) (first : le a b = true) (second : le b c = true) : le a c = true :=
  TransCmp.isLE_trans first second

theorem le_total (a b : CwItem) : (le a b || le b a) = true := by
  rw [le, le, order_swap a b]
  cases order a b <;> rfl

def Sorted (cards : List CwItem) : Prop := cards.Pairwise (fun a b => order a b = .lt)

variable {cards : List CwItem}

theorem Sorted.weak (sorted : Sorted cards) : cards.Pairwise (fun a b => le a b = true) :=
  sorted.imp (fun less => by rw [Deck.le, less]; rfl)

theorem Sorted.apart (sorted : Sorted cards) (first : a ∈ cards) (second : b ∈ cards)
    (distinct : a ≠ b) : order a b = .lt ∨ order b a = .lt := by
  induction sorted with
  | nil => cases first
  | cons before _ ih =>
    rcases mem_cons.mp first with rfl | one <;> rcases mem_cons.mp second with rfl | two
    · exact absurd rfl distinct
    · exact .inl (before b two)
    · exact .inr (before a one)
    · exact ih one two

theorem Sorted.eq_of_perm {cards other : List CwItem} (sorted : Sorted cards)
    (ordered : other.Pairwise (fun a b => Deck.le a b = true)) (perm : cards.Perm other) : cards = other := by
  apply List.Perm.eq_of_pairwise _ sorted.weak ordered perm
  intro a b first second one two
  have second := perm.mem_iff.mpr second
  by_contra apart
  have either := sorted.apart first second apart
  rcases either with less | less
  · rw [Deck.le, order_gt_iff.mpr less] at two
    cases two
  · rw [Deck.le, order_gt_iff.mpr less] at one
    cases one

theorem dealt_cards (lanes : List Lane) : (lanes.zipIdx.flatMap (fun entry => entry.1.shown.map (entry.2, ·))).map Prod.snd =
    lanes.flatMap Lane.shown := by
  rw [map_flatMap]
  simp only [map_map, Function.comp_def, map_id_fun', id]
  rw [← flatMap_map (Prod.fst : Lane × Nat → Lane) Lane.shown, zipIdx_map_fst]

theorem mergeDeck_cards {lanes : List Lane} (sorted : Sorted cards)
    (perm : (lanes.flatMap Lane.shown).Perm cards) : (mergeDeck lanes).cards.map Prod.snd = cards := by
  symm
  apply sorted.eq_of_perm
  · apply pairwise_map.mpr
    exact pairwise_mergeSort (fun a b c => le_trans a.2 b.2 c.2) (fun a b => le_total a.2 b.2) _
  · rw [← dealt_cards lanes] at perm
    exact perm.symm.trans ((mergeSort_perm _ _).map _).symm

def part (sid : ServerId) (cards : List CwItem) : List CwItem := Contest.part (fun card => card.m.sid) sid cards

section
variable (sid : ServerId) (one two : List CwItem)

@[simp] theorem part_nil : part sid [] = [] := rfl

theorem part_append : part sid (one ++ two) = part sid one ++ part sid two := Contest.part_append sid one two

theorem part_reverse : part sid one.reverse = (part sid one).reverse := Contest.part_reverse sid one

theorem part_own (c : CwItem) : part c.m.sid (c :: one) = c :: part c.m.sid one :=
  Contest.part_cons_own c one

end

theorem part_other {sid : ServerId} {c : CwItem} (other : c.m.sid ≠ sid) (cards : List CwItem) :
    part sid (c :: cards) = part sid cards :=
  @Contest.part_cons_other CwItem ServerId _ (fun card => card.m.sid) _ _ other cards

theorem mem_part {sid : ServerId} {c : CwItem} : c ∈ part sid cards ↔ c ∈ cards ∧ c.m.sid = sid :=
  Contest.mem_part

/-- A lane's rows, apart by where the window has them. -/
structure Held (lane : Lane) (b s a : List CwItem) : Prop where
  rows : lane.rows = b ++ s ++ a
  rising : lane.rows.Pairwise (fun one two => one.position < two.position)
  before : ∀ row ∈ b, row.position < lane.lo
  within : ∀ row ∈ s, lane.lo ≤ row.position ∧ row.position < lane.hi
  after : ∀ row ∈ a, lane.hi ≤ row.position
  bounds : lane.lo ≤ lane.hi

section
variable (forward : Bool) (row : CwItem) (lane : Lane)

@[simp] theorem emit_rows : (lane.emit forward row).rows = lane.rows := by
  cases forward
  · rfl
  · by_cases far : lane.reach ≤ row.position <;> simp [emit, far]

@[simp] theorem emit_done : (lane.emit forward row).done = lane.done := by
  cases forward
  · rfl
  · by_cases far : lane.reach ≤ row.position <;> simp [emit, far]

@[simp] theorem emit_head : (lane.emit forward row).head = lane.head := by
  cases forward
  · rfl
  · by_cases far : lane.reach ≤ row.position <;> simp [emit, far]

@[simp] theorem emit_tail : (lane.emit forward row).tail = lane.tail := by
  cases forward
  · rfl
  · by_cases far : lane.reach ≤ row.position <;> simp [emit, far]

@[simp] theorem emit_scan : (lane.emit forward row).scan = lane.scan := by
  cases forward
  · rfl
  · by_cases far : lane.reach ≤ row.position <;> simp [emit, far]

@[simp] theorem emit_forward_lo : (lane.emit true row).lo = lane.lo := by
  by_cases far : lane.reach ≤ row.position <;> simp [emit, far]

@[simp] theorem emit_forward_hi : (lane.emit true row).hi = row.position + 1 := rfl

@[simp] theorem letGo_rows : (lane.letGo forward row).rows = lane.rows := by
  cases forward <;> rfl

@[simp] theorem letGo_done : (lane.letGo forward row).done = lane.done := by
  cases forward <;> rfl

@[simp] theorem letGo_head : (lane.letGo forward row).head = lane.head := by
  cases forward <;> rfl

@[simp] theorem letGo_scan : (lane.letGo forward row).scan = lane.scan := by
  cases forward <;> rfl

end
section
variable (lane : Lane)

@[simp] theorem trim_forward_rows : (lane.trim true).rows = lane.rows.filter (fun row => lane.lo ≤ row.position) := by
  simp only [trim, if_true]
  split <;> rfl

@[simp] theorem trim_forward_lo : (lane.trim true).lo = lane.lo := by
  simp only [trim, if_true]
  split <;> rfl

@[simp] theorem trim_forward_hi : (lane.trim true).hi = lane.hi := by
  simp only [trim, if_true]
  split <;> rfl

@[simp] theorem trim_forward_tail : (lane.trim true).tail = lane.tail := by
  simp only [trim, if_true]
  split <;> rfl

@[simp] theorem trim_forward_done : (lane.trim true).done = lane.done := by
  simp only [trim, if_true]
  split <;> rfl

@[simp] theorem trim_scan (forward : Bool) : (lane.trim forward).scan = lane.scan := by
  cases forward <;> simp only [trim, if_true, false_eq_true, if_false] <;> split <;> rfl

@[simp] theorem trim_backward_rows : (lane.trim false).rows = lane.rows.filter (fun row => row.position < lane.hi) := by
  simp only [trim, false_eq_true, if_false]
  split <;> rfl

@[simp] theorem trim_backward_lo : (lane.trim false).lo = lane.lo := by
  simp only [trim, false_eq_true, if_false]
  split <;> rfl

@[simp] theorem trim_backward_hi : (lane.trim false).hi = lane.hi := by
  simp only [trim, false_eq_true, if_false]
  split <;> rfl

@[simp] theorem trim_backward_head : (lane.trim false).head = lane.head := by
  simp only [trim, false_eq_true, if_false]
  split <;> rfl

end
section
variable {lane : Lane} {b s a : List CwItem}

section
variable (held : Held lane b s a)
include held

theorem Held.filter_ahead : lane.rows.filter (fun row => lane.hi ≤ row.position) = a := by
  have bounds := held.bounds
  rw [held.rows, filter_append, filter_append, filter_eq_nil_iff.mpr, filter_eq_nil_iff.mpr,
    filter_eq_self.mpr]
  · rfl
  · exact fun row mem => decide_eq_true (held.after row mem)
  · intro row mem
    have inside := held.within row mem
    simp only [decide_eq_true_eq]
    omega
  · intro row mem
    have low := held.before row mem
    simp only [decide_eq_true_eq]
    omega

theorem Held.filter_behind : lane.rows.filter (fun row => row.position < lane.lo) = b := by
  have bounds := held.bounds
  rw [held.rows, filter_append, filter_append, filter_eq_self.mpr, filter_eq_nil_iff.mpr,
    filter_eq_nil_iff.mpr, append_nil, append_nil]
  · intro row mem
    have high := held.after row mem
    simp only [decide_eq_true_eq]
    omega
  · intro row mem
    have inside := held.within row mem
    simp only [decide_eq_true_eq]
    omega
  · exact fun row mem => decide_eq_true (held.before row mem)

theorem Held.shown_eq : lane.shown = s := by
  rw [Lane.shown, held.rows, filter_append, filter_append, filter_eq_nil_iff.mpr,
    filter_eq_self.mpr, filter_eq_nil_iff.mpr, nil_append, append_nil]
  · intro row mem
    have high := held.after row mem
    simp only [isShown, and_eq_true, decide_eq_true_eq]
    omega
  · intro row mem
    have inside := held.within row mem
    simp only [isShown, and_eq_true, decide_eq_true_eq]
    exact inside
  · intro row mem
    have low := held.before row mem
    simp only [isShown, and_eq_true, decide_eq_true_eq]
    omega

theorem Held.ahead_eq : lane.ahead = a.length := congrArg List.length held.filter_ahead

theorem Held.behind_eq : lane.behind = b.length := congrArg List.length held.filter_behind

theorem Held.next_forward : lane.next true = a.head? := by
  change lane.rows.find? (fun row => lane.hi ≤ row.position) = _
  rw [← List.head?_filter, held.filter_ahead]

theorem Held.next_backward : lane.next false = b.reverse.head? := by
  change lane.rows.reverse.find? (fun row => row.position < lane.lo) = _
  rw [← List.head?_filter, filter_reverse, held.filter_behind]

theorem Held.oldest_forward : lane.oldest true = s.head? := by
  change lane.rows.find? lane.isShown = _
  rw [← List.head?_filter, ← Lane.shown, held.shown_eq]

theorem Held.oldest_backward : lane.oldest false = s.reverse.head? := by
  change lane.rows.reverse.find? lane.isShown = _
  rw [← List.head?_filter, filter_reverse, ← Lane.shown, held.shown_eq]

end

variable {c : CwItem}

theorem Held.emit_forward (held : Held lane b s (c :: a)) : Held (lane.emit true c) b (s ++ [c]) a := by
  have rising := held.rising
  rw [held.rows] at rising
  obtain ⟨next, ahead⟩ := forall_mem_cons.mp held.after
  have above := (pairwise_cons.mp (pairwise_append.mp rising).2.1).1
  have bounds := held.bounds
  refine ⟨?_, ?_, ?_, ?_, ?_, ?_⟩
  · rw [emit_rows, held.rows]
    simp
  · rw [emit_rows]
    exact held.rising
  · rw [emit_forward_lo]
    exact held.before
  · rw [emit_forward_lo, emit_forward_hi]
    refine forall_mem_append.mpr ⟨?_, ?_⟩
    · intro row mem
      have inside := held.within row mem
      omega
    · intro row only
      rw [mem_singleton.mp only]
      omega
  · exact above
  · rw [emit_forward_lo, emit_forward_hi]
    omega

theorem Held.emit_backward (held : Held lane (b ++ [c]) s a) : Held (lane.emit false c) b (c :: s) a := by
  have rising := held.rising
  rw [held.rows] at rising
  obtain ⟨behind, last⟩ := forall_mem_append.mp held.before
  have low := last c (mem_singleton_self c)
  have below := (pairwise_append.mp (pairwise_append.mp (pairwise_append.mp rising).1).1).2.2
  have bounds := held.bounds
  refine ⟨?_, held.rising, ?_, ?_, held.after, ?_⟩
  · rw [emit_rows, held.rows]
    simp
  · exact fun row mem => below row mem c (mem_singleton_self c)
  · refine forall_mem_cons.mpr ⟨?_, ?_⟩
    · exact ⟨le_rfl, low.trans_le bounds⟩
    · intro row mem
      have inside := held.within row mem
      exact ⟨low.le.trans inside.1, inside.2⟩
  · exact (low.trans_le bounds).le

theorem Held.letGo_forward (held : Held lane b (c :: s) a) : Held (lane.letGo true c) (b ++ [c]) s a := by
  have rising := held.rising
  rw [held.rows] at rising
  obtain ⟨oldest, inside⟩ := forall_mem_cons.mp held.within
  have above := (pairwise_cons.mp (pairwise_append.mp (pairwise_append.mp rising).1).2.1).1
  refine ⟨?_, held.rising, ?_, ?_, held.after, ?_⟩
  · rw [letGo_rows, held.rows]
    simp
  · refine forall_mem_append.mpr ⟨?_, ?_⟩
    · intro row mem
      have low := held.before row mem
      change row.position < c.position + 1
      omega
    · intro row only
      rw [mem_singleton.mp only]
      exact Nat.lt_succ_self _
  · intro row mem
    exact ⟨above row mem, (inside row mem).2⟩
  · exact oldest.2

theorem Held.letGo_backward (held : Held lane b (s ++ [c]) a) : Held (lane.letGo false c) b s (c :: a) := by
  have rising := held.rising
  rw [held.rows] at rising
  obtain ⟨inside, last⟩ := forall_mem_append.mp held.within
  have newest := last c (mem_singleton_self c)
  have below := (pairwise_append.mp (pairwise_append.mp (pairwise_append.mp rising).1).2.1).2.2
  refine ⟨?_, held.rising, held.before, ?_, ?_, newest.1⟩
  · rw [letGo_rows, held.rows]
    simp
  · intro row mem
    exact ⟨(inside row mem).1, below row mem c (mem_singleton_self c)⟩
  · refine forall_mem_cons.mpr ⟨?_, ?_⟩
    · exact le_rfl
    · intro row mem
      have high := held.after row mem
      exact newest.2.le.trans high

theorem Held.trim_forward (held : Held lane b s a) : Held (lane.trim true) [] s a := by
  have bounds := held.bounds
  have kept : (lane.trim true).rows = s ++ a := by
    rw [trim_forward_rows, held.rows, append_assoc, filter_append, filter_eq_nil_iff.mpr,
      filter_eq_self.mpr, nil_append]
    · refine forall_mem_append.mpr ⟨?_, ?_⟩
      · exact fun row mem => decide_eq_true (held.within row mem).1
      · exact fun row mem => decide_eq_true (bounds.trans (held.after row mem))
    · intro row mem
      have low := held.before row mem
      simp only [decide_eq_true_eq]
      omega
  refine ⟨kept, ?_, fun row mem => absurd mem not_mem_nil, ?_, ?_, ?_⟩
  · rw [trim_forward_rows]
    exact held.rising.sublist filter_sublist
  · rw [trim_forward_lo, trim_forward_hi]
    exact held.within
  · rw [trim_forward_hi]
    exact held.after
  · rw [trim_forward_lo, trim_forward_hi]
    exact bounds

theorem Held.trim_backward (held : Held lane b s a) : Held (lane.trim false) b s [] := by
  have bounds := held.bounds
  have kept : (lane.trim false).rows = b ++ s ++ [] := by
    rw [trim_backward_rows, held.rows, filter_append, filter_eq_self.mpr, filter_eq_nil_iff.mpr]
    · intro row mem
      have high := held.after row mem
      simp only [decide_eq_true_eq]
      omega
    · refine forall_mem_append.mpr ⟨?_, ?_⟩
      · exact fun row mem => decide_eq_true ((held.before row mem).trans_le bounds)
      · exact fun row mem => decide_eq_true (held.within row mem).2
  refine ⟨kept, ?_, ?_, ?_, fun row mem => absurd mem not_mem_nil, ?_⟩
  · rw [trim_backward_rows]
    exact held.rising.sublist filter_sublist
  · rw [trim_backward_lo]
    exact held.before
  · rw [trim_backward_lo, trim_backward_hi]
    exact held.within
  · rw [trim_backward_lo, trim_backward_hi]
    exact bounds

end
end PlxNative.Deck
