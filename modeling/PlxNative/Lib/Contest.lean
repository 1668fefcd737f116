import Mathlib.Data.List.Nodup

/-! The best of what several lanes offer, one offer at most by each. Where one sorted sequence is
dealt out over lanes and every lane offers its first, the winner is the first of the sequence. -/
namespace Contest
open List
variable {α ι : Type} (beats : α → α → Bool)

def meet (best : Option (Nat × α)) (entry : Option α × Nat) : Option (Nat × α) :=
  match entry.1, best with
  | none, _ => best
  | some offer, none => some (entry.2, offer)
  | some offer, some held => if beats offer held.2 then some (entry.2, offer) else best

/-- The winner with its lane; the one before stands unless it is beaten. -/
def best (offers : List (Option α)) : Option (Nat × α) := offers.zipIdx.foldl (meet beats) none

variable {beats}
variable {i : Nat} {champion : α}

theorem meets_champion (entries : List (Option α × Nat)) (held : Option (Nat × α))
    (others : ∀ entry ∈ entries, ∀ offer, entry.1 = some offer →
      entry = (some champion, i) ∨ beats champion offer = true ∧ beats offer champion = false)
    (before : ∀ pair, held = some pair → pair = (i, champion) ∨ beats champion pair.2 = true)
    (still : beats champion champion = false) (met : held = some (i, champion) ∨ (some champion, i) ∈ entries) :
    entries.foldl (meet beats) held = some (i, champion) := by
  induction entries generalizing held with
  | nil => exact met.elim id (fun mem => absurd mem not_mem_nil)
  | cons entry rest ih =>
    rw [foldl_cons]
    obtain ⟨first, later⟩ := forall_mem_cons.mp others
    rcases entry with ⟨_ | offer, place⟩
    · apply ih held later before
      rcases met with now | mem
      · exact .inl now
      · rcases mem_cons.mp mem with eq | mem
        · cases eq
        · exact .inr mem
    · rcases first offer rfl with eq | ⟨wins, loses⟩
      · obtain ⟨rfl, rfl⟩ : offer = champion ∧ place = i := by
          rw [Prod.mk.injEq, Option.some.injEq] at eq
          exact eq
        have taken : meet beats held (some offer, place) = some (place, offer) := by
          cases held with
          | none => rfl
          | some pair =>
            rcases before pair rfl with rfl | wins
            · simp [meet]
            · simp [meet, wins]
        rw [taken]
        apply ih _ later
        · rintro pair ⟨⟩
          exact .inl rfl
        · exact .inl rfl
      · have kept : meet beats (some (i, champion)) (some offer, place) = some (i, champion) := by
          simp [meet, loses]
        apply ih _ later
        · intro pair became
          cases held with
          | none =>
            cases became
            exact .inr wins
          | some old =>
            change (if beats offer old.2 then some (place, offer) else some old) = some pair at became
            split at became
            · cases became
              exact .inr wins
            · exact before pair became
        · rcases met with rfl | mem
          · exact .inl kept
          · rcases mem_cons.mp mem with eq | mem
            · rw [Prod.mk.injEq, Option.some.injEq] at eq
              obtain rfl := eq.1
              rw [wins] at still
              cases still
            · exact .inr mem

variable {offers : List (Option α)}

theorem best_eq_some (offered : offers[i]? = some (some champion))
    (others : ∀ j offer, offers[j]? = some (some offer) → j = i ∨ beats champion offer = true ∧ beats offer champion = false)
    (still : beats champion champion = false) : best beats offers = some (i, champion) := by
  apply meets_champion offers.zipIdx none
  · rintro ⟨first, j⟩ mem offer rfl
    have there : offers[j]? = some (some offer) := List.mk_mem_zipIdx_iff_getElem?.mp mem
    rcases others j offer there with rfl | beaten
    · rw [offered] at there
      obtain rfl := Option.some.inj (Option.some.inj there)
      exact .inl rfl
    · exact .inr beaten
  · rintro pair ⟨⟩
  · exact still
  · exact .inr (List.mk_mem_zipIdx_iff_getElem?.mpr offered)

theorem best_offered (won : best beats offers = some (i, champion)) : offers[i]? = some (some champion) := by
  have rounds : ∀ (entries : List (Option α × Nat)) (held : Option (Nat × α)),
      entries.foldl (meet beats) held = some (i, champion) → held = some (i, champion) ∨ (some champion, i) ∈ entries := by
    intro entries
    induction entries with
    | nil => exact fun held eq => .inl eq
    | cons entry rest ih =>
      intro held ends
      rcases ih _ ends with now | later
      · rcases entry with ⟨_ | offer, place⟩
        · exact .inl now
        · cases held with
          | none =>
            cases now
            exact .inr (mem_cons_self ..)
          | some old =>
            change (if beats offer old.2 then some (place, offer) else some old) = some (i, champion) at now
            split at now
            · cases now
              exact .inr (mem_cons_self ..)
            · exact .inl now
      · exact .inr (mem_cons_of_mem _ later)
  rcases rounds _ _ won with none_ | mem
  · cases none_
  · exact List.mk_mem_zipIdx_iff_getElem?.mp mem

theorem best_eq_none_iff : best beats offers = none ↔ ∀ offer ∈ offers, offer = none := by
  have rounds : ∀ (entries : List (Option α × Nat)) (held : Option (Nat × α)),
      entries.foldl (meet beats) held = none ↔ held = none ∧ ∀ entry ∈ entries, entry.1 = none := by
    intro entries
    induction entries with
    | nil => simp
    | cons entry rest ih =>
      intro held
      rw [foldl_cons, ih, forall_mem_cons]
      rcases entry with ⟨_ | offer, place⟩
      · simp [meet]
      · cases held with
        | none => simp [meet]
        | some old =>
          have stays : meet beats (some old) (some offer, place) ≠ none := by
            change (if beats offer old.2 then some (place, offer) else some old) ≠ none
            split <;> exact Option.some_ne_none _
          simp [stays]
  rw [best, rounds]
  constructor
  · rintro ⟨-, all⟩ offer mem
    obtain ⟨j, there⟩ := List.getElem?_of_mem mem
    exact all (offer, j) (List.mk_mem_zipIdx_iff_getElem?.mpr there)
  · exact fun all => ⟨rfl, fun entry mem => all _ (fst_mem_of_mem_zipIdx mem)⟩

section
variable [DecidableEq ι] (lane : α → ι)

/-- The part of a sequence that one lane holds. -/
def part (id_ : ι) (sequence : List α) : List α := sequence.filter (fun a => lane a = id_)

variable {lane}

@[simp] theorem part_nil (id_ : ι) : part lane id_ [] = [] := rfl

theorem part_append (id_ : ι) (before after : List α) :
    part lane id_ (before ++ after) = part lane id_ before ++ part lane id_ after :=
  filter_append ..

theorem part_cons_own (first : α) (rest : List α) : part lane (lane first) (first :: rest) = first :: part lane (lane first) rest :=
  filter_cons_of_pos (decide_eq_true rfl)

theorem part_cons_other {id_ : ι} {first : α} (other : lane first ≠ id_) (rest : List α) :
    part lane id_ (first :: rest) = part lane id_ rest :=
  filter_cons_of_neg (by simpa using other)

variable {sequence : List α}

theorem mem_part {id_ : ι} {a : α} : a ∈ part lane id_ sequence ↔ a ∈ sequence ∧ lane a = id_ := by
  simp [part]

theorem part_reverse (id_ : ι) (sequence : List α) : part lane id_ sequence.reverse = (part lane id_ sequence).reverse :=
  filter_reverse

theorem best_of_dealt {ids : List ι} {first : α} {rest : List α} {i : Nat} (distinct : ids.Nodup)
    (sorted : ∀ later ∈ rest, beats first later = true ∧ beats later first = false) (still : beats first first = false)
    (home : ids[i]? = some (lane first)) :
    best beats (ids.map (fun id_ => (part lane id_ (first :: rest)).head?)) = some (i, first) := by
  apply best_eq_some
  · rw [List.getElem?_map, home, Option.map_some, part_cons_own, List.head?_cons]
  · intro j offer offered
    rw [List.getElem?_map] at offered
    cases there : ids[j]? with
    | none =>
      rw [there] at offered
      cases offered
    | some id_ =>
      rw [there, Option.map_some, Option.some.injEq] at offered
      by_cases own : lane first = id_
      · subst own
        exact .inl ((List.getElem?_inj (List.getElem?_eq_some_iff.mp there).1 distinct).mp (there.trans home.symm))
      · rw [part_cons_other own] at offered
        exact .inr (sorted offer (mem_part.mp (List.mem_of_mem_head? offered)).1)
  · exact still

theorem parts_perm {ids : List ι} (distinct : ids.Nodup) (home : ∀ a ∈ sequence, lane a ∈ ids) :
    (ids.flatMap (fun id_ => part lane id_ sequence)).Perm sequence := by
  induction sequence with
  | nil => simp
  | cons first rest ih =>
    obtain ⟨own, others⟩ := forall_mem_cons.mp home
    obtain ⟨pre, post, rfl⟩ := append_of_mem own
    have apart := nodup_append.mp distinct
    have before : ∀ id_ ∈ pre, part lane id_ (first :: rest) = part lane id_ rest := by
      intro id_ mem
      exact part_cons_other (fun eq => apart.2.2 id_ mem _ (mem_cons_self ..) eq.symm) rest
    have after : ∀ id_ ∈ post, part lane id_ (first :: rest) = part lane id_ rest := by
      intro id_ mem
      apply part_cons_other _ rest
      rintro rfl
      exact (nodup_cons.mp apart.2.1).1 mem
    have still := ih others
    rw [flatMap_append, flatMap_cons] at still ⊢
    rw [flatMap_congr before, flatMap_congr after, part_cons_own, cons_append]
    exact perm_middle.trans (still.cons first)

end
end Contest
