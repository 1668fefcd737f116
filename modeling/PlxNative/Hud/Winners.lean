import Mathlib.Data.List.MinMax
import PlxNative.Hud.Transition

/-! Which installed package stands for an id: the greatest version among those the candidates
hold, and of equal ones the first. -/
namespace PlxNative.Hud.HudStore
open List

/-- The package a candidate offers for an id. -/
def offered (packs : SortedMap Sha Loaded) (id : String) (dir : Dir) : Option Winner :=
  (dir.index.lookup id).bind (installed packs id)

def contenders (s : HudStore) (id : String) : List Winner := s.dirs.filterMap (offered s.packs id)

/-- The higher version, and on a tie the one before. -/
def prefer (best : Option Winner) (win : Winner) : Option Winner :=
  List.argAux (fun b c => Winner.release c < Winner.release b) best win

variable {id : String}

variable {w : Winner}

theorem installed_eq_some {packs : SortedMap Sha Loaded} {record : Record} :
    installed packs id record = some w ↔ w.record = record ∧ packs.lookup record.sha = some w.loaded ∧
      w.loaded.metadata.id = id ∧ w.loaded.metadata.packageFormat = record.packageFormat ∧
        w.loaded.metadata.hudFormat = record.hudFormat := by
  unfold installed
  cases held : packs.lookup record.sha with
  | none => simp
  | some loaded =>
    simp only [Option.bind_some]
    constructor
    · intro found
      split at found
      · rename_i matches_
        cases found
        exact ⟨rfl, rfl, matches_⟩
      · cases found
    · rintro ⟨rfl, eq, matches_⟩
      cases eq
      exact if_pos matches_

theorem offered_eq_some {packs : SortedMap Sha Loaded} {dir : Dir} :
    offered packs id dir = some w ↔ dir.index.lookup id = some w.record ∧ installed packs id w.record = some w := by
  unfold offered
  rw [Option.bind_eq_some_iff]
  constructor
  · rintro ⟨record, held, found⟩
    obtain rfl := (installed_eq_some.mp found).1
    exact ⟨held, found⟩
  · rintro ⟨held, found⟩
    exact ⟨w.record, held, found⟩

theorem lookup_enter (packs : SortedMap Sha Loaded) (best : SortedMap String Winner) (entry : String × Record)
    (id : String) : (enter packs best entry).lookup id =
      if id = entry.1 then
        (match installed packs id entry.2 with
          | none => best.lookup id
          | some win => prefer (best.lookup id) win)
      else best.lookup id := by
  unfold enter
  by_cases eq : id = entry.1
  · subst eq
    rw [if_pos rfl]
    cases installed packs entry.1 entry.2 with
    | none => rfl
    | some win =>
      cases held : best.lookup entry.1 with
      | none => simp [better, prefer, List.argAux]
      | some old =>
        by_cases less : old.release < win.release <;> simp [better, prefer, List.argAux, less, held]
  · rw [if_neg eq]
    split
    · rfl
    · split
      · rw [SortedMap.lookup_insert, if_neg eq]
      · rfl

theorem lookup_enter_all (packs : SortedMap Sha Loaded) (id : String) {entries : List (String × Record)}
    (ordered : entries.Pairwise (fun a b => a.1 < b.1)) (best : SortedMap String Winner) :
    (entries.foldl (enter packs) best).lookup id =
      match (entries.lookup id).bind (installed packs id) with
        | none => best.lookup id
        | some win => prefer (best.lookup id) win := by
  induction entries generalizing best with
  | nil => rfl
  | cons entry rest ih =>
    obtain ⟨above, tail⟩ := pairwise_cons.mp ordered
    rw [foldl_cons, ih tail, lookup_enter, lookup_cons]
    by_cases eq : id = entry.1
    · have absent : rest.lookup id = none := lookup_eq_none_iff.mpr (fun e mem => by
        rw [eq]
        exact bne_iff_ne.mpr (above e mem).ne)
      rw [absent, if_pos eq, beq_iff_eq.mpr eq]
      rfl
    · rw [if_neg eq, beq_eq_false_iff_ne.mpr eq]

theorem winners_lookup (s : HudStore) (id : String) :
    s.winners.lookup id = (s.contenders id).argmax Winner.release := by
  unfold winners contenders
  induction s.dirs using List.reverseRecOn with
  | nil => rfl
  | append_singleton dirs dir ih =>
    rw [foldl_append, foldl_cons, foldl_nil, lookup_enter_all s.packs id dir.index.ordered, ih,
      filterMap_append]
    cases found : offered s.packs id dir with
    | none =>
      have silent : (dir.index.entries.lookup id).bind (installed s.packs id) = none := found
      rw [silent, filterMap_cons_none found, filterMap_nil, append_nil]
    | some win =>
      have told : (dir.index.entries.lookup id).bind (installed s.packs id) = some win := found
      rw [told, filterMap_cons_some found, filterMap_nil, argmax_concat]
      rfl

variable {s : HudStore}

theorem mem_contenders :
    w ∈ s.contenders id ↔ ∃ dir ∈ s.dirs, dir.index.lookup id = some w.record ∧ installed s.packs id w.record = some w := by
  simp only [contenders, mem_filterMap, offered_eq_some]

theorem winner_contends (won : s.winners.lookup id = some w) :
    w ∈ s.contenders id := by
  rw [winners_lookup] at won
  exact argmax_mem won

theorem winner_greatest {w other : Winner} (won : s.winners.lookup id = some w)
    (mem : other ∈ s.contenders id) : other.release ≤ w.release := by
  rw [winners_lookup] at won
  exact le_of_mem_argmax mem won

theorem no_winner (lost : s.winners.lookup id = none) : s.contenders id = [] := by
  rw [winners_lookup] at lost
  exact argmax_eq_none.mp lost

theorem unlisted (absent : ∀ dir ∈ s.dirs, dir.index.lookup id = none) :
    s.winners.lookup id = none := by
  rw [winners_lookup, argmax_eq_none, eq_nil_iff_forall_not_mem]
  intro w mem
  obtain ⟨dir, known, held, -⟩ := mem_contenders.mp mem
  rw [absent dir known] at held
  cases held

theorem winners_congr {s t : HudStore} (dirs : s.dirs = t.dirs) (packs : s.packs = t.packs) : s.winners = t.winners := by
  unfold winners
  rw [dirs, packs]

end PlxNative.Hud.HudStore
