import PlxNative.Deck.Seats

/-! A server that holds still: it answers an offset read with the rows its listing has there. What
a read does to a lane whose edge row the listing still holds, where it was or moved. -/
namespace PlxNative.Deck
open List Metadata
open ViewState (ServerId)
open Paging (clean card parseItem shelfCard)

/-- One server of the deck, with the preview's own word on what lies past it. -/
structure Server where
  sid : ServerId
  items : List Metadata
  /-- Whether its pages name the listing's size. -/
  sendsTotal : Bool
  more : Bool
  hubTotal : Nat

def Server.total (server : Server) : Nat := if server.sendsTotal then server.items.length else 0

def Server.list (server : Server) : Listing := fun start size =>
  some ⟨start, server.total, (server.items.drop start).take size⟩

def Metadata.key (item : Metadata) : String := clean item.ratingKey

def cardOf (sid : ServerId) (item : Metadata) (position : Nat) : CwItem :=
  ⟨item.lastViewedAt, parseItem item.toMetadata sid, position⟩

def cardsFrom (sid : ServerId) (items : List Metadata) (start : Nat) : List CwItem :=
  (items.zipIdx start).map (fun entry => cardOf sid entry.1 entry.2)

/-- A listing in descending last-viewed order, every row a card, told apart by keys that are not
empty. -/
structure Honest (hidden : List Int) (server : Server) : Prop where
  descending : server.items.Pairwise (fun one two => two.lastViewedAt ≤ one.lastViewedAt)
  distinct : (server.items.map key).Nodup
  shows : ∀ item ∈ server.items, (card server.sid item.toMetadata hidden).isSome = true
  named : ∀ item ∈ server.items, item.key ≠ ""

section
variable {sid : ServerId} {hidden : List Int}

theorem row_eq {item : Metadata} (shows : (card sid item.toMetadata hidden).isSome = true) (position : Nat) :
    row sid item position hidden = some (cardOf sid item position) := by
  obtain ⟨m, is⟩ := Option.isSome_iff_exists.mp shows
  have shelf := (Option.filter_eq_some_iff.mp is).1
  simp only [shelfCard] at shelf
  have parsed : m = parseItem item.toMetadata sid := by
    split at shelf
    · cases shelf
    · split at shelf
      · cases shelf
      · exact (Option.some.inj shelf).symm
  rw [row, is, parsed]
  rfl

theorem shows_unhidden {item : Paging.Metadata} (shows : (card sid item hidden).isSome = true) : (card sid item []).isSome = true := by
  obtain ⟨m, is⟩ := Option.isSome_iff_exists.mp shows
  have shelf := (Option.filter_eq_some_iff.mp is).1
  rw [card, shelf]
  rfl

@[simp] theorem cardOf_key (item : Metadata) (position : Nat) : (cardOf sid item position).m.rk = item.key := rfl

@[simp] theorem cardOf_sid (item : Metadata) (position : Nat) : (cardOf sid item position).m.sid = sid := rfl

@[simp] theorem cardOf_position (item : Metadata) (position : Nat) : (cardOf sid item position).position = position := rfl

@[simp] theorem cardsFrom_nil (start : Nat) : cardsFrom sid [] start = [] := rfl

theorem cardsFrom_cons (item : Metadata) (items : List Metadata) (start : Nat) :
    cardsFrom sid (item :: items) start = cardOf sid item start :: cardsFrom sid items (start + 1) := rfl

theorem cardsFrom_append (one two : List Metadata) (start : Nat) :
    cardsFrom sid (one ++ two) start = cardsFrom sid one start ++ cardsFrom sid two (start + one.length) := by
  rw [cardsFrom, zipIdx_append, map_append]
  rfl

@[simp] theorem cardsFrom_length (items : List Metadata) (start : Nat) : (cardsFrom sid items start).length = items.length := by
  simp [cardsFrom]

theorem cardsFrom_keys (items : List Metadata) (start : Nat) :
    (cardsFrom sid items start).map (·.m.rk) = items.map key := by
  induction items generalizing start with
  | nil => rfl
  | cons item rest ih => rw [cardsFrom_cons, map_cons, ih, map_cons, cardOf_key]

variable {items : List Metadata}
variable {start : Nat} {c : CwItem}

theorem mem_cardsFrom (mem : c ∈ cardsFrom sid items start) :
    ∃ at_ item, items[at_]? = some item ∧ c = cardOf sid item (start + at_) := by
  obtain ⟨⟨item, place⟩, there, rfl⟩ := mem_map.mp mem
  obtain ⟨low, found⟩ := List.mk_mem_zipIdx_iff_le_and_getElem?_sub.mp there
  refine ⟨place - start, item, found, ?_⟩
  rw [Nat.add_sub_cancel' low]

theorem cardsFrom_bounds (mem : c ∈ cardsFrom sid items start) :
    start ≤ c.position ∧ c.position < start + items.length := by
  obtain ⟨at_, item, found, rfl⟩ := mem_cardsFrom mem
  have bound := (List.getElem?_eq_some_iff.mp found).1
  rw [cardOf_position]
  omega

theorem cardsFrom_sid (mem : c ∈ cardsFrom sid items start) : c.m.sid = sid := by
  obtain ⟨at_, item, -, rfl⟩ := mem_cardsFrom mem
  rfl

theorem cardsFrom_rising (items : List Metadata) (start : Nat) :
    (cardsFrom sid items start).Pairwise (fun one two => one.position < two.position) := by
  induction items generalizing start with
  | nil => exact .nil
  | cons item rest ih =>
    refine pairwise_cons.mpr ⟨?_, ih (start + 1)⟩
    intro later mem
    have bound := cardsFrom_bounds mem
    rw [cardOf_position]
    omega

theorem cardsFrom_sorted (descending : items.Pairwise (fun one two => two.lastViewedAt ≤ one.lastViewedAt))
    (start : Nat) : Sorted (cardsFrom sid items start) := by
  induction items generalizing start with
  | nil => exact .nil
  | cons item rest ih =>
    obtain ⟨first, others⟩ := pairwise_cons.mp descending
    refine pairwise_cons.mpr ⟨?_, ih others (start + 1)⟩
    intro later mem
    obtain ⟨at_, other, found, rfl⟩ := mem_cardsFrom mem
    have eq : (cardOf sid item start).m.sid = (cardOf sid other (start + 1 + at_)).m.sid := rfl
    have before : (cardOf sid item start).position < (cardOf sid other (start + 1 + at_)).position := by
      rw [cardOf_position, cardOf_position]
      omega
    exact order_within eq (first other (List.mem_of_getElem? found)) before

end
section
variable {sid : ServerId} {hidden : List Int} {past : Nat → Bool}

theorem join_past (entries : List (Metadata × Nat)) (acc : List CwItem × Option Anchor)
    (behind : ∀ entry ∈ entries, past entry.2 = true) : entries.foldl (joinRow sid hidden past) acc = acc := by
  induction entries with
  | nil => rfl
  | cons entry rest ih =>
    obtain ⟨first, others⟩ := forall_mem_cons.mp behind
    rw [foldl_cons, joinRow, if_pos first]
    exact ih others

theorem join_rows (items : List Metadata) (start : Nat) (acc : List CwItem × Option Anchor)
    (fresh : ∀ at_, start ≤ at_ → past at_ = false)
    (shows : ∀ item ∈ items, (card sid item.toMetadata hidden).isSome = true) (distinct : (items.map key).Nodup)
    (news : ∀ held ∈ acc.1, held.m.rk ∉ items.map key) :
    ((items.zipIdx start).foldl (joinRow sid hidden past) acc).1 = acc.1 ++ cardsFrom sid items start := by
  induction items generalizing start acc with
  | nil => exact (append_nil _).symm
  | cons item rest ih =>
    obtain ⟨first, others⟩ := forall_mem_cons.mp shows
    obtain ⟨own, apart⟩ := nodup_cons.mp distinct
    have unheld : acc.1.all (fun held => held.m.rk ≠ (cardOf sid item start).m.rk) = true := by
      apply all_eq_true.mpr
      intro held mem
      apply decide_eq_true
      intro eq
      exact news held mem (mem_cons.mpr (.inl eq))
    have step : joinRow sid hidden past acc (item, start) = (acc.1 ++ [cardOf sid item start], some ⟨start, item.key⟩) := by
      have open_ := fresh start le_rfl
      simp only [joinRow, open_, row_eq first, unheld]
      rfl
    rw [zipIdx_cons, foldl_cons, step, ih (start + 1) _ (fun at_ low => fresh at_ (by omega)) others apart]
    · rw [cardsFrom_cons, append_assoc, singleton_append]
    · refine forall_mem_append.mpr ⟨?_, forall_mem_singleton.mpr own⟩
      intro held mem inside
      exact news held mem (mem_cons_of_mem _ inside)

theorem join_last (items : List Metadata) (item : Metadata) (start : Nat) (acc : List CwItem × Option Anchor)
    (fresh : ∀ at_, start ≤ at_ → past at_ = false) :
    (((items ++ [item]).zipIdx start).foldl (joinRow sid hidden past) acc).2 = some ⟨start + items.length, item.key⟩ := by
  have open_ := fresh (start + items.length) (Nat.le_add_right ..)
  rw [zipIdx_append, foldl_append, zipIdx_singleton, foldl_cons, foldl_nil, joinRow, if_neg]
  · rfl
  · simp [open_]

end
end PlxNative.Deck
