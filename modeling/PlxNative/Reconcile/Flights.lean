import PlxNative.Reconcile.Store

/-! Reads never overlap: one read is out per server, an item is queued or out and never both, and
what was asked for again is asked of a read that is out. -/
namespace PlxNative.Reconcile
open List Nat
open ViewState (ServerId ClientKeys sameItem)

section

variable {α : Type} {list : List α} {last : α}

theorem forall_snoc {P : α → Prop} (all : ∀ x ∈ list, P x) (own : P last) : ∀ x ∈ list ++ [last], P x :=
  forall_mem_append.mpr ⟨all, forall_mem_singleton.mpr own⟩

theorem nodup_snoc (nodup : list.Nodup) (fresh : last ∉ list) : (list ++ [last]).Nodup :=
  nodup_append.mpr ⟨nodup, nodup_singleton _, fun _ mem _ only eq => fresh (mem_singleton.mp only ▸ eq ▸ mem)⟩

@[simp] theorem sameItem_iff (a b : Key) : sameItem a b = true ↔ a = b := by
  simp [sameItem, Prod.ext_iff]

@[simp] theorem queued_iff (list : List Key) (key : Key) : ViewReconcileStore.queued list key = true ↔ key ∈ list := by
  simp [ViewReconcileStore.queued]

theorem asks_iff (f : Flight) (key : Key) : f.asks key = true ↔ f.sid = key.1 ∧ key.2 ∈ f.keys := by
  rcases key with ⟨sid, rk⟩
  simp only [Flight.asks, any_eq_true, sameItem_iff, Prod.mk.injEq]
  constructor
  · rintro ⟨k, mem, eq, rfl⟩
    exact ⟨eq, mem⟩
  · rintro ⟨eq, mem⟩
    exact ⟨rk, mem, eq, rfl⟩

theorem isParent_iff (f : Flight) (key : Key) : f.isParent key = true ↔ f.sid = key.1 ∧ key.2 ∈ f.parents :=
  asks_iff ⟨f.id, f.sid, f.parents, [], f.stamp⟩ key

variable {list : List Key}

theorem mem_push {key k : Key} : k ∈ ViewReconcileStore.push list key ↔ k ∈ list ∨ k = key := by
  unfold ViewReconcileStore.push
  split
  · rename_i present
    exact ⟨.inl, fun either => either.elim id (fun eq => eq ▸ (queued_iff list key).mp present)⟩
  · simp

theorem push_nodup (nodup : list.Nodup) (key : Key) : (ViewReconcileStore.push list key).Nodup := by
  unfold ViewReconcileStore.push
  split
  · exact nodup
  · rename_i absent
    exact nodup_snoc nodup (fun mem => absent ((queued_iff list key).mpr mem))

end
section
open ViewReconcileStore

theorem takeLeaves_spec (sid : ServerId) (list : List Key) (keys : List String) (room : keys.length ≤ batchKeys) :
    ∃ taken, (takeLeaves sid list keys).1 = keys ++ taken ∧
      List.Perm list (taken.map (fun rk => (sid, rk)) ++ (takeLeaves sid list keys).2) ∧
      (keys ++ taken).length ≤ batchKeys ∧
      ((keys ++ taken).length < batchKeys → ∀ key ∈ (takeLeaves sid list keys).2, key.1 ≠ sid) := by
  induction list generalizing keys with
  | nil => exact ⟨[], by simp [takeLeaves], by simp [takeLeaves], by simpa using room, by simp [takeLeaves]⟩
  | cons key rest ih =>
    unfold takeLeaves
    split
    · rename_i takes
      obtain ⟨taken, eq, perm, bound, all⟩ := ih (keys ++ [key.2]) (by simpa using succ_le_of_lt takes.2)
      refine ⟨key.2 :: taken, ?_, ?_, ?_, ?_⟩
      · simpa using eq
      · have own : (sid, key.2) = key := by rw [← takes.1]
        simp only [map_cons, own]
        exact perm.cons key
      · simpa using bound
      · simpa using all
    · rename_i stays
      obtain ⟨taken, eq, perm, bound, all⟩ := ih keys room
      refine ⟨taken, eq, ?_, bound, fun less k mem => ?_⟩
      · exact (perm.cons key).trans perm_middle.symm
      · rcases mem_cons.mp mem with rfl | later
        · intro own
          simp only [length_append] at less
          exact stays ⟨own, by omega⟩
        · exact all less k later

theorem takeLeaves_taken (sid : ServerId) (list : List Key) (keys : List String) :
    (takeLeaves sid list keys).1 = keys ++ ((list.filter (·.1 = sid)).take (batchKeys - keys.length)).map (·.2) := by
  induction list generalizing keys with
  | nil => simp [takeLeaves]
  | cons key rest ih =>
    unfold takeLeaves
    split
    · rename_i takes
      obtain ⟨room, more⟩ := exists_eq_succ_of_ne_zero (sub_ne_zero_of_lt takes.2)
      have less : batchKeys - (keys ++ [key.2]).length = room := by
        simp only [length_append, length_cons, length_nil]
        omega
      rw [ih, filter_cons_of_pos (by simpa using takes.1), more, less, succ_eq_add_one, take_succ_cons]
      simp
    · rename_i stays
      rw [ih]
      by_cases own : key.1 = sid
      · have full : batchKeys - keys.length = 0 := Nat.sub_eq_zero_of_le (Nat.not_lt.mp (fun room => stays ⟨own, room⟩))
        rw [full, take_zero, take_zero]
      · rw [filter_cons_of_neg (by simpa using own)]

theorem takeLeaves_others {sid other : ServerId} (apart : other ≠ sid) (list : List Key) (keys : List String) :
    (takeLeaves sid list keys).2.filter (·.1 = other) = list.filter (·.1 = other) := by
  induction list generalizing keys with
  | nil => rfl
  | cons key rest ih =>
    unfold takeLeaves
    split
    · rename_i takes
      rw [ih, filter_cons_of_neg (by simpa using fun eq => apart (eq.symm.trans takes.1))]
    · rw [filter_cons, filter_cons, ih]

theorem takeParents_spec (sid : ServerId) (list : List Key) (keys parents : List String) (nodup : keys.Nodup) (room : keys.length ≤ batchKeys) :
    ∃ more, (takeParents sid list keys parents).1 = keys ++ more ∧ (takeParents sid list keys parents).2.1 = parents ++ more ∧
      (keys ++ more).Nodup ∧ (keys ++ more).length ≤ batchKeys ∧ (more ≠ [] → keys.length < batchKeys) ∧
      (takeParents sid list keys parents).2.2.Sublist list ∧
      (list.Nodup → ∀ rk ∈ more, (sid, rk) ∉ (takeParents sid list keys parents).2.2) := by
  induction list generalizing keys parents with
  | nil => exact ⟨[], by simp [takeParents], by simp [takeParents], by simpa using nodup, by simpa using room, by simp, by simp [takeParents], by simp⟩
  | cons key rest ih =>
    unfold takeParents
    split
    · obtain ⟨more, eq, same', nodup, bound, less, sub, gone⟩ := ih keys parents nodup room
      refine ⟨more, eq, same', nodup, bound, less, sub.cons_cons key, fun distinct rk mem => ?_⟩
      rename_i stays
      rcases stays with other | full
      · exact fun kept => (mem_cons.mp kept).elim (fun eq => other (eq ▸ rfl)) (gone (nodup_cons.mp distinct).2 rk mem)
      · exact absurd (less (ne_nil_of_mem mem)) (Nat.not_lt_of_le full)
    · rename_i takes
      split
      · obtain ⟨more, eq, same', nodup, bound, less, sub, gone⟩ := ih keys parents nodup room
        exact ⟨more, eq, same', nodup, bound, less, sub.cons key, fun distinct => gone (nodup_cons.mp distinct).2⟩
      · rename_i fresh
        have takes_ : key.1 = sid ∧ keys.length < batchKeys := by simpa using takes
        have absent : key.2 ∉ keys := by simpa using fresh
        have own : (sid, key.2) = key := by rw [← takes_.1]
        obtain ⟨more, eq, same', nodup', bound, -, sub, gone⟩ := ih (keys ++ [key.2]) (parents ++ [key.2])
          (nodup_snoc nodup absent) (by simpa using succ_le_of_lt takes_.2)
        refine ⟨key.2 :: more, by simpa using eq, by simpa using same', by simpa using nodup', by simpa using bound, fun _ => takes_.2,
          sub.cons key, fun distinct rk mem => ?_⟩
        obtain ⟨once, distinct⟩ := nodup_cons.mp distinct
        rcases mem_cons.mp mem with rfl | later
        · rw [own]
          exact fun kept => once (sub.subset kept)
        · exact gone distinct rk later

end

/-- What holds of the lists in every reachable state. -/
structure Sound (s : ViewReconcileStore) : Prop where
  distinct : (s.flights.map (·.id)).Nodup
  below : ∀ f ∈ s.flights, f.id < s.nextId
  oneEach : (s.flights.map (·.sid)).Nodup
  bounded : ∀ f ∈ s.flights, f.keys.length ≤ batchKeys
  once : ∀ f ∈ s.flights, f.keys.Nodup
  tail : ∀ f ∈ s.flights, f.parents <:+ f.keys
  apart : ∀ f ∈ s.flights, ∀ key ∈ s.pending, f.asks key = false
  dirtyOut : ∀ key ∈ s.dirty, s.isOut key = true
  pendingOnce : s.pending.Nodup
  dirtyOnce : s.dirty.Nodup
  parentsOnce : s.pendingParents.Nodup
  parentsApart : ∀ f ∈ s.flights, ∀ rk ∈ f.parents, (f.sid, rk) ∉ s.pendingParents

/-- An item is owed a read that is not sent yet. -/
def Owed (s : ViewReconcileStore) (key : Key) : Prop := key ∈ s.pending ∨ key ∈ s.dirty

theorem isOut_iff (s : ViewReconcileStore) (key : Key) : s.isOut key = true ↔ ∃ f ∈ s.flights, f.asks key = true := by
  simp [ViewReconcileStore.isOut]

namespace Sound
open ViewReconcileStore
variable {s : ViewReconcileStore}

theorem start : Sound .new := by
  constructor <;> simp [ViewReconcileStore.new]

section
variable (sound : Sound s)
include sound

theorem same {s' : ViewReconcileStore} (flights : s'.flights = s.flights) (nextId : s'.nextId = s.nextId)
    (pending : s'.pending = s.pending) (dirty : s'.dirty = s.dirty) (parents : s'.pendingParents = s.pendingParents) : Sound s' := by
  obtain ⟨distinct, below, oneEach, bounded, once, tail, apart, dirtyOut, pendingOnce, dirtyOnce, parentsOnce, parentsApart⟩ := sound
  constructor <;> simp only [flights, nextId, pending, dirty, parents, ViewReconcileStore.isOut] <;> assumption

theorem shrink {pending pendingParents : List Key} (once : pending.Nodup) (sub : ∀ key ∈ pending, key ∈ s.pending)
    (subParents : pendingParents.Sublist s.pendingParents) :
    Sound { s with pending := pending, pendingParents := pendingParents } :=
  { sound with
    apart := fun f mem key queued => sound.apart f mem key (sub key queued)
    dirtyOut := sound.dirtyOut
    pendingOnce := once
    parentsOnce := sound.parentsOnce.sublist subParents
    parentsApart := fun f mem rk parent queued => sound.parentsApart f mem rk parent (subParents.subset queued) }

theorem enqueueOne (key : Key) : Sound (s.enqueueOne key) := by
  unfold ViewReconcileStore.enqueueOne
  simp only
  split
  · rename_i out
    exact { sound with
      dirtyOut := fun k mem => (mem_push.mp mem).elim (sound.dirtyOut k) (fun eq => eq ▸ out)
      dirtyOnce := push_nodup sound.dirtyOnce key }
  · rename_i free
    refine { sound with
      apart := fun f mem k queued => ?_
      pendingOnce := push_nodup sound.pendingOnce key }
    rcases mem_push.mp queued with old | rfl
    · exact sound.apart f mem k old
    · exact Bool.eq_false_iff.mpr (fun asks => free ((isOut_iff _ _).mpr ⟨f, mem, asks⟩))

theorem enqueue (keys : List Key) : Sound (s.enqueue keys) := by
  induction keys generalizing s with
  | nil => exact sound
  | cons key rest ih => exact ih (sound.enqueueOne key)

theorem enqueueRereadOne (key : Key) : Sound (s.enqueueRereadOne key) := by
  unfold ViewReconcileStore.enqueueRereadOne
  simp only
  split
  · exact (sound.enqueue [key]).same rfl rfl rfl rfl rfl
  · exact sound.enqueue [key]

theorem enqueueReread (keys : List Key) : Sound (s.enqueueReread keys) := by
  induction keys generalizing s with
  | nil => exact sound
  | cons key rest ih => exact ih (sound.enqueueRereadOne key)

theorem enqueueStop (key : Key) (wasWatched : Bool) : Sound (s.enqueueStop key wasWatched) := by
  unfold ViewReconcileStore.enqueueStop
  split
  · exact sound.enqueue [key]
  · exact Sound.enqueue (s := { s with candidates := stampCandidate key s.nextId s.candidates }) (sound.same rfl rfl rfl rfl rfl) [key]

end

theorem reset : Sound s.reset := by
  constructor <;> simp [ViewReconcileStore.reset, ViewReconcileStore.bump]

end Sound
section
open ViewReconcileStore
variable {s : ViewReconcileStore} {clients : ClientKeys} {sid : ServerId}

theorem Sound.sent (sound : Sound s) {f : Flight} (minted : f.id = s.nextId) (free : ∀ g ∈ s.flights, g.sid ≠ f.sid)
    (bounded : f.keys.length ≤ batchKeys) (once : f.keys.Nodup) (tail : f.parents <:+ f.keys)
    (apart : ∀ key ∈ s.pending, f.asks key = false) (parentsApart : ∀ rk ∈ f.parents, (f.sid, rk) ∉ s.pendingParents) (jobs : List Job) :
    Sound { s with nextId := s.nextId + 1, jobs := jobs, flights := s.flights ++ [f] } where
  distinct := by
    rw [map_append, map_cons, map_nil]
    refine nodup_snoc sound.distinct (fun mem => ?_)
    obtain ⟨g, inside, eq⟩ := mem_map.mp mem
    exact Nat.ne_of_lt (sound.below g inside) (eq.trans minted)
  below := forall_snoc (fun g mem => lt_succ_of_lt (sound.below g mem)) (minted ▸ lt_succ_self _)
  oneEach := by
    rw [map_append, map_cons, map_nil]
    refine nodup_snoc sound.oneEach (fun mem => ?_)
    obtain ⟨g, inside, eq⟩ := mem_map.mp mem
    exact free g inside eq
  bounded := forall_snoc sound.bounded bounded
  once := forall_snoc sound.once once
  tail := forall_snoc sound.tail tail
  apart := forall_snoc sound.apart apart
  dirtyOut := by
    intro key mem
    obtain ⟨g, out, asks⟩ := (isOut_iff s key).mp (sound.dirtyOut key mem)
    exact (isOut_iff _ key).mpr ⟨g, mem_append_left _ out, asks⟩
  pendingOnce := sound.pendingOnce
  dirtyOnce := sound.dirtyOnce
  parentsOnce := sound.parentsOnce
  parentsApart := forall_snoc sound.parentsApart parentsApart

/-- The registry has no client for an item's server, no read of which is out, and the item is in its batch. -/
def Unregistered (clients : ClientKeys) (s : ViewReconcileStore) (key : Key) : Prop :=
  clients.key key.1 = none ∧ (∀ f ∈ s.flights, f.sid ≠ key.1) ∧ key ∈ (s.pending.filter (·.1 = key.1)).take batchKeys

/-- A server's batch: what it takes, what stays, and how the taking ends. -/
structure Kicked (clients : ClientKeys) (s : ViewReconcileStore) (sid : ServerId) (kicked : ViewReconcileStore × Note) : Prop where
  sound : Sound kicked.1
  dirty : kicked.1.dirty = s.dirty
  candidates : kicked.1.candidates = s.candidates
  watchedEnds : kicked.1.watchedEnds = s.watchedEnds
  pending : ∀ key ∈ kicked.1.pending, key ∈ s.pending
  others : ∀ other, other ≠ sid → kicked.1.pending.filter (·.1 = other) = s.pending.filter (·.1 = other)
  lost : ∀ key, key.1 = sid → Unregistered clients s key → key ∉ kicked.1.pending ∧ kicked.1.flights = s.flights
  outcome : (∃ keys, kicked.2 = .dropped sid keys ∧ kicked.1.flights = s.flights ∧ kicked.1.nextId = s.nextId ∧
      ∀ key ∈ s.pending, key ∈ kicked.1.pending ∨ key.1 = sid ∧ key.2 ∈ keys ∧ Unregistered clients s key) ∨
    ∃ f : Flight, kicked.2 = .sent f ∧ f.id = s.nextId ∧ f.sid = sid ∧ kicked.1.flights = s.flights ++ [f] ∧
      kicked.1.nextId = s.nextId + 1 ∧ ∀ key ∈ s.pending, key ∈ kicked.1.pending ∨ f.asks key = true ∧ f.isParent key = false

theorem kickServer_kicked (sound : Sound s) (clients : ClientKeys) (free : ∀ f ∈ s.flights, f.sid ≠ sid) :
    Kicked clients s sid (s.kickServer clients sid) := by
  obtain ⟨taken, keys, perm, bound, all⟩ := takeLeaves_spec sid s.pending [] (Nat.zero_le _)
  have first := takeLeaves_taken sid s.pending []
  rw [keys, nil_append, length_nil, Nat.sub_zero] at first
  obtain ⟨takenOnce, restOnce, disjoint⟩ := nodup_append.mp (perm.nodup_iff.mp sound.pendingOnce)
  obtain ⟨more, keys', parents', once, bound', less, sub, gone⟩ :=
    takeParents_spec sid s.pendingParents taken [] (List.Nodup.of_map _ takenOnce) bound
  obtain ⟨-, -, leavesApart⟩ := nodup_append.mp once
  have stays : ∀ key ∈ (takeLeaves sid s.pending []).2, key ∈ s.pending :=
    fun key mem => perm.mem_iff.mpr (mem_append_right _ mem)
  have split_ : ∀ key ∈ s.pending, key ∈ (takeLeaves sid s.pending []).2 ∨ key.1 = sid ∧ key.2 ∈ taken := by
    intro key mem
    rcases mem_append.mp (perm.mem_iff.mp mem) with out | stays
    · obtain ⟨rk, inside, rfl⟩ := mem_map.mp out
      exact .inr ⟨rfl, inside⟩
    · exact .inl stays
  have inBatch : ∀ key : Key, key.1 = sid → (key.2 ∈ taken ↔ key ∈ (s.pending.filter (·.1 = key.1)).take batchKeys) := by
    rintro ⟨server, rk⟩ rfl
    rw [first]
    constructor
    · intro inside
      obtain ⟨⟨server', rk'⟩, mem, rfl⟩ := mem_map.mp inside
      have own : server' = server := by simpa using (mem_filter.mp (mem_of_mem_take mem)).2
      exact own ▸ mem
    · exact fun mem => mem_map_of_mem mem
  have others : ∀ other, other ≠ sid → (takeLeaves sid s.pending []).2.filter (·.1 = other) = s.pending.filter (·.1 = other) :=
    fun other apart => takeLeaves_others apart s.pending []
  have gone_ : ∀ key : Key, key.1 = sid → key ∈ (s.pending.filter (·.1 = key.1)).take batchKeys → key ∉ (takeLeaves sid s.pending []).2 :=
    fun key own inside queued => disjoint _ (mem_map_of_mem ((inBatch key own).mpr inside)) key queued (by rw [← own])
  have shrunk := sound.shrink restOnce stays sub
  unfold ViewReconcileStore.kickServer
  simp only [keys, keys', parents', nil_append]
  split
  · rename_i unregistered
    refine ⟨shrunk, rfl, rfl, rfl, stays, others, fun key own lost => ⟨gone_ key own lost.2.2, rfl⟩,
      .inl ⟨taken ++ more, rfl, rfl, rfl, fun key mem => ?_⟩⟩
    refine (split_ key mem).imp_right (fun ⟨own, inside⟩ => ⟨own, mem_append_left _ inside, ?_⟩)
    exact ⟨own ▸ unregistered, own ▸ free, (inBatch key own).mp inside⟩
  · rename_i client registered
    refine ⟨shrunk.sent rfl free bound' once (suffix_append _ _) (fun key queued => ?_) (gone sound.parentsOnce) _, rfl, rfl, rfl, stays,
      others, fun key own lost => ?_, .inr ⟨_, rfl, rfl, rfl, rfl, rfl, fun key mem => (split_ key mem).imp_right ?_⟩⟩
    · refine Bool.eq_false_iff.mpr (fun asks => ?_)
      obtain ⟨own, asked⟩ := (asks_iff _ _).mp asks
      simp only at own asked
      rcases mem_append.mp asked with leaf | parent
      · exact disjoint _ (mem_map_of_mem leaf) key queued (by rw [own])
      · exact all (less (ne_nil_of_mem parent)) key queued own.symm
    · have none_ := lost.1
      rw [own, registered] at none_
      cases none_
    · rintro ⟨own, inside⟩
      refine ⟨(asks_iff _ _).mpr ⟨own.symm, mem_append_left _ inside⟩, Bool.eq_false_iff.mpr (fun parent => ?_)⟩
      exact leavesApart _ inside _ ((isParent_iff _ _).mp parent).2 rfl

/-- What a kick leaves: the sent flights are the new ones, and an item that is queued no more is a leaf
of one of them or was dropped. -/
structure KickedAll (clients : ClientKeys) (s : ViewReconcileStore) (kicked : ViewReconcileStore × List Note) : Prop where
  sound : Sound kicked.1
  dirty : kicked.1.dirty = s.dirty
  candidates : kicked.1.candidates = s.candidates
  watchedEnds : kicked.1.watchedEnds = s.watchedEnds
  later : s.nextId ≤ kicked.1.nextId
  pending : ∀ key ∈ kicked.1.pending, key ∈ s.pending
  flights : ∀ f, f ∈ kicked.1.flights ↔ f ∈ s.flights ∨ .sent f ∈ kicked.2
  sent : ∀ f, .sent f ∈ kicked.2 → s.nextId ≤ f.id ∧ f.id < kicked.1.nextId
  outcome : ∀ key ∈ s.pending, key ∈ kicked.1.pending ∨ (∃ f, .sent f ∈ kicked.2 ∧ f.asks key = true ∧ f.isParent key = false) ∨
    Unregistered clients s key ∧ ∃ keys, .dropped key.1 keys ∈ kicked.2
  notes : ∀ note ∈ kicked.2, (∃ f, note = .sent f) ∨ ∃ sid keys, note = .dropped sid keys

variable {kicked : ViewReconcileStore × Note}

theorem Kicked.apart (now : Kicked clients s sid kicked) {other : ServerId} (apart : other ≠ sid) :
    (∀ f ∈ kicked.1.flights, f.sid ≠ other) ↔ ∀ f ∈ s.flights, f.sid ≠ other := by
  rcases now.outcome with ⟨_, -, flights, -⟩ | ⟨f, -, -, own, flights, -⟩
  · rw [flights]
  · rw [flights, forall_mem_append, forall_mem_singleton, own]
    exact ⟨And.left, fun all => ⟨all, apart.symm⟩⟩

variable {key : Key}

theorem Kicked.unregistered (now : Kicked clients s sid kicked) (apart : key.1 ≠ sid) :
    Unregistered clients kicked.1 key ↔ Unregistered clients s key := by
  rw [Unregistered, Unregistered, now.apart apart, now.others key.1 apart]

theorem kickEach_dropped (clients : ClientKeys) (servers : List ServerId) (s : ViewReconcileStore) {sid : ServerId} {keys : List String}
    (dropped : .dropped sid keys ∈ (kickEach clients s servers).2) : sid ∈ servers := by
  induction servers generalizing s with
  | nil => cases dropped
  | cons first rest ih =>
    rcases mem_cons.mp dropped with own | later
    · unfold ViewReconcileStore.kickServer at own
      split at own <;> cases own
      exact mem_cons_self
    · exact mem_cons_of_mem _ (ih _ later)

theorem kickEach_sent (clients : ClientKeys) (servers : List ServerId) (s : ViewReconcileStore) {f : Flight}
    (sent : .sent f ∈ (kickEach clients s servers).2) : f.sid ∈ servers := by
  induction servers generalizing s with
  | nil => cases sent
  | cons first rest ih =>
    rcases mem_cons.mp sent with own | later
    · unfold ViewReconcileStore.kickServer at own
      split at own <;> cases own
      exact mem_cons_self
    · exact mem_cons_of_mem _ (ih _ later)

theorem kickEach_kicked (clients : ClientKeys) (servers : List ServerId) (sound : Sound s) (distinct : servers.Nodup)
    (free : ∀ sid ∈ servers, ∀ f ∈ s.flights, f.sid ≠ sid) : KickedAll clients s (kickEach clients s servers) := by
  induction servers generalizing s with
  | nil =>
    rw [kickEach]
    exact ⟨sound, rfl, rfl, rfl, Nat.le_refl _, fun _ => id, fun f => by simp, fun _ mem => absurd mem not_mem_nil, fun _ => .inl,
      fun _ mem => absurd mem not_mem_nil⟩
  | cons sid rest ih =>
    obtain ⟨apart, distinct⟩ := nodup_cons.mp distinct
    have now := kickServer_kicked sound clients (free sid mem_cons_self)
    have later := ih now.sound distinct (fun other mem =>
      (now.apart (fun eq => apart (eq ▸ mem))).mpr (free other (mem_cons_of_mem _ mem)))
    have eq : kickEach clients s (sid :: rest) = ((kickEach clients (s.kickServer clients sid).1 rest).1,
      (s.kickServer clients sid).2 :: (kickEach clients (s.kickServer clients sid).1 rest).2) := by rw [kickEach]
    have inRest : ∀ {other : ServerId} {keys : List String},
        .dropped other keys ∈ (kickEach clients (s.kickServer clients sid).1 rest).2 → other ∈ rest := kickEach_dropped clients rest _
    rw [eq]
    generalize kickEach clients (s.kickServer clients sid).1 rest = last at later inRest
    generalize s.kickServer clients sid = one at now later
    have grows : s.nextId ≤ one.1.nextId := by
      rcases now.outcome with ⟨_, -, -, next, -⟩ | ⟨f, -, -, -, -, next, -⟩ <;> omega
    constructor
    case sound => exact later.sound
    case dirty => exact later.dirty.trans now.dirty
    case candidates => exact later.candidates.trans now.candidates
    case watchedEnds => exact later.watchedEnds.trans now.watchedEnds
    case later => exact grows.trans later.later
    case pending => exact fun key mem => now.pending key (later.pending key mem)
    case flights =>
      intro f
      rw [later.flights, mem_cons]
      rcases now.outcome with ⟨_, dropped, flights, -⟩ | ⟨g, sent, -, -, flights, -⟩
      · rw [flights, dropped]
        simp
      · rw [flights, sent, mem_append, mem_singleton, Note.sent.injEq]
        tauto
    case sent =>
      intro f mem
      rcases mem_cons.mp mem with own | other
      · rcases now.outcome with ⟨_, dropped, -⟩ | ⟨g, sent, minted, -, -, next, -⟩
        · rw [dropped] at own
          cases own
        · rw [sent] at own
          cases own
          exact ⟨minted.ge, Nat.lt_of_lt_of_le (by omega) later.later⟩
      · exact ⟨grows.trans (later.sent f other).1, (later.sent f other).2⟩
    case outcome =>
      intro key mem
      have onward : key ∈ one.1.pending → key ∈ last.1.pending ∨
          (∃ f, .sent f ∈ one.2 :: last.2 ∧ f.asks key = true ∧ f.isParent key = false) ∨
            Unregistered clients s key ∧ ∃ keys, .dropped key.1 keys ∈ one.2 :: last.2 := by
        intro queued
        rcases later.outcome key queued with stays | ⟨f, sent, asks⟩ | ⟨lost, keys, dropped⟩
        · exact .inl stays
        · exact .inr (.inl ⟨f, mem_cons_of_mem _ sent, asks⟩)
        · have other : key.1 ≠ sid := fun own => apart (own ▸ inRest dropped)
          exact .inr (.inr ⟨(now.unregistered other).mp lost, keys, mem_cons_of_mem _ dropped⟩)
      rcases now.outcome with ⟨keys, dropped, -, -, outcome⟩ | ⟨f, sent, -, -, -, -, outcome⟩
      · rcases outcome key mem with stays | ⟨own, -, lost⟩
        · exact onward stays
        · exact .inr (.inr ⟨lost, keys, own ▸ dropped ▸ mem_cons_self⟩)
      · rcases outcome key mem with stays | leaf
        · exact onward stays
        · exact .inr (.inl ⟨f, sent ▸ mem_cons_self, leaf⟩)
    case notes =>
      intro note mem
      rcases mem_cons.mp mem with rfl | other
      · rcases now.outcome with ⟨keys, dropped, -⟩ | ⟨f, sent, -⟩
        · exact .inr ⟨sid, keys, dropped⟩
        · exact .inl ⟨f, sent⟩
      · exact later.notes note other

theorem kickEach_lost (clients : ClientKeys) (servers : List ServerId) (sound : Sound s) (distinct : servers.Nodup)
    (free : ∀ sid ∈ servers, ∀ f ∈ s.flights, f.sid ≠ sid) (handled : key.1 ∈ servers) (lost : Unregistered clients s key) :
    key ∉ (kickEach clients s servers).1.pending ∧ ∀ f ∈ (kickEach clients s servers).1.flights, f.sid ≠ key.1 := by
  induction servers generalizing s with
  | nil => cases handled
  | cons sid rest ih =>
    obtain ⟨apart, distinct⟩ := nodup_cons.mp distinct
    have now := kickServer_kicked sound clients (free sid mem_cons_self)
    have freeRest : ∀ other ∈ rest, ∀ f ∈ (s.kickServer clients sid).1.flights, f.sid ≠ other := fun other mem =>
      (now.apart (fun eq => apart (eq ▸ mem))).mpr (free other (mem_cons_of_mem _ mem))
    rcases mem_cons.mp handled with own | later
    · have after_ := kickEach_kicked clients rest now.sound distinct freeRest
      obtain ⟨gone, eq⟩ := now.lost key own lost
      refine ⟨fun queued => gone (after_.pending key queued), fun f out => ?_⟩
      rcases (after_.flights f).mp out with old | sent
      · exact lost.2.1 f (eq ▸ old)
      · exact fun server => apart (own ▸ server ▸ kickEach_sent clients rest _ sent)
    · have other : key.1 ≠ sid := fun eq => apart (eq ▸ later)
      exact ih now.sound distinct freeRest later ((now.unregistered other).mpr lost)

theorem kickServers_spec (s : ViewReconcileStore) : s.kickServers.Nodup ∧ (∀ sid ∈ s.kickServers, ∀ f ∈ s.flights, f.sid ≠ sid) ∧
    ∀ key ∈ s.pending, (∀ f ∈ s.flights, f.sid ≠ key.1) → key.1 ∈ s.kickServers := by
  have run : ∀ keys : List Key, ∀ servers : List ServerId, (servers.Nodup ∧ ∀ sid ∈ servers, ∀ f ∈ s.flights, f.sid ≠ sid) →
      (fun found : List ServerId => found.Nodup ∧ (∀ sid ∈ found, ∀ f ∈ s.flights, f.sid ≠ sid) ∧ (∀ sid ∈ servers, sid ∈ found) ∧
          ∀ key ∈ keys, (∀ f ∈ s.flights, f.sid ≠ key.1) → key.1 ∈ found)
        (keys.foldl (fun servers key => if servers.contains key.1 || s.flights.any (·.sid = key.1) then servers else servers ++ [key.1]) servers) := by
    intro keys
    induction keys with
    | nil => exact fun _ good => ⟨good.1, good.2, fun _ => id, fun _ mem => absurd mem not_mem_nil⟩
    | cons key rest ih =>
      intro servers good
      rw [foldl_cons]
      split
      · rename_i known
        obtain ⟨once, free, keep, all⟩ := ih servers good
        refine ⟨once, free, keep, forall_mem_cons.mpr ⟨fun apart => keep _ ?_, all⟩⟩
        simp only [Bool.or_eq_true, contains_iff_mem, any_eq_true, decide_eq_true_eq] at known
        exact known.resolve_right (fun ⟨f, out, own⟩ => apart f out own)
      · rename_i new
        simp only [Bool.or_eq_true, contains_iff_mem, any_eq_true, decide_eq_true_eq, not_or, not_exists, not_and] at new
        obtain ⟨once, free, keep, all⟩ := ih _ ⟨nodup_snoc good.1 new.1, forall_snoc good.2 new.2⟩
        exact ⟨once, free, fun sid mem => keep sid (mem_append_left _ mem),
          forall_mem_cons.mpr ⟨fun _ => keep _ (mem_append_right _ mem_cons_self), all⟩⟩
  obtain ⟨once, free, -, all⟩ := run (s.pending ++ s.pendingParents) [] ⟨nodup_nil, fun _ mem => absurd mem not_mem_nil⟩
  exact ⟨once, free, fun key queued => all key (mem_append_left _ queued)⟩

theorem kick_kicked (sound : Sound s) (clients : ClientKeys) : KickedAll clients s (s.kick clients) := by
  unfold ViewReconcileStore.kick
  split
  · exact ⟨sound.same rfl rfl rfl rfl rfl, rfl, rfl, rfl, Nat.le_refl _, fun _ => id, fun f => by simp, fun _ mem => absurd mem not_mem_nil, fun _ => .inl,
        fun _ mem => absurd mem not_mem_nil⟩
  · exact kickEach_kicked clients s.kickServers sound (kickServers_spec s).1 (kickServers_spec s).2.1

theorem kick_lost (sound : Sound s) (clients : ClientKeys) (ready : s.retryCd = 0) (lost : Unregistered clients s key) :
    key ∉ (s.kick clients).1.pending ∧ ∀ f ∈ (s.kick clients).1.flights, f.sid ≠ key.1 := by
  have queued : key ∈ s.pending := (mem_filter.mp (mem_of_mem_take lost.2.2)).1
  obtain ⟨once, free, all⟩ := kickServers_spec s
  rw [ViewReconcileStore.kick, if_neg (by omega)]
  exact kickEach_lost clients s.kickServers sound once free (all key queued lost.2.1) lost

end
section
open ViewReconcileStore
variable {s : ViewReconcileStore} {f : Flight}

theorem erase_found {α : Type} {p : α → Bool} {list : List α} {a : α} (found : list.find? p = some a) :
    ∃ before after, list = before ++ a :: after ∧ list.eraseP p = before ++ after := by
  obtain ⟨holds, before, after, rfl, earlier⟩ := List.find?_eq_some_iff_append.mp found
  refine ⟨before, after, rfl, ?_⟩
  rw [eraseP_append_right _ (by simpa using earlier), eraseP_cons_of_pos holds]

variable {id : Nat}

theorem Sound.landed (sound : Sound s) (found : s.flights.find? (·.id = id) = some f) {s' : ViewReconcileStore}
    (flights : s'.flights = s.flights.eraseP (·.id = id)) (nextId : s'.nextId = s.nextId)
    (dirty : s'.dirty = s.dirty.filter (fun key => !f.asks key)) (pendingOnce : s'.pending.Nodup)
    (pending : ∀ key ∈ s'.pending, key ∈ s.pending ∨ key.1 = f.sid) (parentsOnce : s'.pendingParents.Nodup)
    (parents : ∀ key ∈ s'.pendingParents, key ∈ s.pendingParents ∨ key.1 = f.sid) : Sound s' := by
  obtain ⟨before, after, whole, erased⟩ := erase_found found
  have sub : (s'.flights).Sublist s.flights := flights ▸ eraseP_sublist
  have others : ∀ g ∈ s'.flights, g.sid ≠ f.sid := by
    have apart := sound.oneEach
    rw [whole, map_append, map_cons, nodup_middle, nodup_cons, ← map_append] at apart
    rw [flights, erased]
    exact fun g inside own => apart.1 (own ▸ mem_map_of_mem inside)
  have left : ∀ g ∈ s.flights, g ≠ f → g ∈ s'.flights := by
    intro g inside other
    rw [whole, mem_append, mem_cons] at inside
    rw [flights, erased, mem_append]
    exact inside.imp_right (fun rest => rest.resolve_left other)
  exact {
    distinct := sound.distinct.sublist (sub.map _)
    below := fun g inside => nextId ▸ sound.below g (sub.subset inside)
    oneEach := sound.oneEach.sublist (sub.map _)
    bounded := fun g inside => sound.bounded g (sub.subset inside)
    once := fun g inside => sound.once g (sub.subset inside)
    tail := fun g inside => sound.tail g (sub.subset inside)
    apart := by
      intro g inside key queued
      rcases pending key queued with old | own
      · exact sound.apart g (sub.subset inside) key old
      · exact Bool.eq_false_iff.mpr (fun asks => others g inside (((asks_iff _ _).mp asks).1.trans own))
    dirtyOut := by
      intro key again
      rw [dirty] at again
      obtain ⟨old, other⟩ := mem_filter.mp again
      obtain ⟨g, out, asks⟩ := (isOut_iff s key).mp (sound.dirtyOut key old)
      refine (isOut_iff _ key).mpr ⟨g, left g out ?_, asks⟩
      rintro rfl
      simp [asks] at other
    pendingOnce := pendingOnce
    dirtyOnce := dirty ▸ sound.dirtyOnce.filter _
    parentsOnce := parentsOnce
    parentsApart := by
      intro g inside rk parent queued
      rcases parents _ queued with old | own
      · exact sound.parentsApart g (sub.subset inside) rk parent old
      · exact others g inside own }

theorem requeueLeaves (s : ViewReconcileStore) (sid : ServerId) (rks : List String) (once : s.pending.Nodup) :
    ∃ pending, rks.foldl (fun s rk => s.requeueLeaf sid rk) s = { s with pending := pending } ∧ pending.Nodup ∧
      ∀ key, key ∈ pending ↔ key ∈ s.pending ∨ key.1 = sid ∧ key.2 ∈ rks := by
  induction rks generalizing s with
  | nil => exact ⟨s.pending, rfl, once, by simp⟩
  | cons rk rest ih =>
    obtain ⟨pending, eq, once', members⟩ := ih (s.requeueLeaf sid rk) (push_nodup once (sid, rk))
    refine ⟨pending, by rw [foldl_cons, eq]; rfl, once', fun key => ?_⟩
    rw [members, ViewReconcileStore.requeueLeaf]
    simp only [mem_push, mem_cons, Prod.ext_iff]
    tauto

theorem requeueParents (s : ViewReconcileStore) (sid : ServerId) (again : List Key) (rks : List String) (once : s.pending.Nodup)
    (parentsOnce : s.pendingParents.Nodup) (distinct : rks.Nodup) (apart : ∀ rk ∈ rks, (sid, rk) ∉ s.pendingParents) :
    ∃ pending parents, rks.foldl (fun s rk => s.requeueParent sid again rk) s = { s with pending := pending, pendingParents := parents } ∧
      pending.Nodup ∧ parents.Nodup ∧ (∀ key ∈ s.pending, key ∈ pending) ∧
      (∀ key ∈ pending, key ∈ s.pending ∨ key.1 = sid ∧ key.2 ∈ rks) ∧
      (∀ key ∈ parents, key ∈ s.pendingParents ∨ key.1 = sid ∧ key.2 ∈ rks) ∧ (∀ key ∈ s.pendingParents, key ∈ parents) ∧
      (∀ rk ∈ rks, (sid, rk) ∈ pending ∨ (sid, rk) ∈ parents) ∧ (∀ rk ∈ rks, (sid, rk) ∈ again → (sid, rk) ∈ pending) := by
  induction rks generalizing s with
  | nil => exact ⟨s.pending, s.pendingParents, rfl, once, parentsOnce, fun _ => id, fun _ => .inl, fun _ => .inl, fun _ => id, nofun, nofun⟩
  | cons rk rest ih =>
    obtain ⟨fresh, distinct⟩ := nodup_cons.mp distinct
    have absent := apart rk mem_cons_self
    -- Where this one goes; the rest never touches it again.
    have one : ∃ p pp, s.requeueParent sid again rk = { s with pending := p, pendingParents := pp } ∧ p.Nodup ∧ pp.Nodup ∧
        (∀ key ∈ s.pending, key ∈ p) ∧ (∀ key ∈ p, key ∈ s.pending ∨ key = (sid, rk)) ∧
        (∀ key ∈ pp, key ∈ s.pendingParents ∨ key = (sid, rk)) ∧ (∀ key ∈ s.pendingParents, key ∈ pp) ∧
        ((sid, rk) ∈ p ∨ (sid, rk) ∈ pp) ∧ ((sid, rk) ∈ again → (sid, rk) ∈ p) := by
      unfold ViewReconcileStore.requeueParent
      split
      · rename_i present
        have inside : (sid, rk) ∈ s.pending := by
          simp only [Bool.or_eq_true, queued_iff] at present
          exact present.resolve_right absent
        exact ⟨s.pending, s.pendingParents, rfl, once, parentsOnce, fun _ => id, fun _ => .inl, fun _ => .inl, fun _ => id, .inl inside,
          fun _ => inside⟩
      · rename_i missing
        simp only [Bool.or_eq_true, queued_iff, not_or] at missing
        split
        · exact ⟨s.pending ++ [(sid, rk)], s.pendingParents, rfl, nodup_snoc once missing.1, parentsOnce,
            fun _ => mem_append_left _, fun key mem => (mem_append.mp mem).imp_right mem_singleton.mp,
            fun _ => .inl, fun _ => id, .inl (mem_append_right _ mem_cons_self),
            fun _ => mem_append_right _ mem_cons_self⟩
        · rename_i unasked
          exact ⟨s.pending, s.pendingParents ++ [(sid, rk)], rfl, once, nodup_snoc parentsOnce missing.2, fun _ => id, fun _ => .inl,
            fun key mem => (mem_append.mp mem).imp_right mem_singleton.mp, fun _ => mem_append_left _,
            .inr (mem_append_right _ mem_cons_self), fun again_ => absurd ((queued_iff _ _).mpr again_) unasked⟩
    obtain ⟨p, pp, made, once', parentsOnce', keep, from_, fromParents, keepParents, somewhere, asItem⟩ := one
    obtain ⟨pending, parents, eq, once'', parentsOnce'', keep', from', fromParents', keepParents', somewhere', asItem'⟩ :=
      ih (s.requeueParent sid again rk) (made ▸ once') (made ▸ parentsOnce') distinct (fun rk' mem queued => by
        rw [made] at queued
        rcases fromParents _ queued with old | own
        · exact apart rk' (mem_cons_of_mem _ mem) old
        · exact fresh ((Prod.mk.inj own).2 ▸ mem))
    rw [made] at eq keep' from' fromParents' keepParents'
    refine ⟨pending, parents, by rw [foldl_cons, made, eq], once'', parentsOnce'', fun key mem => keep' key (keep key mem),
      fun key mem => ?_, fun key mem => ?_, fun key mem => keepParents' key (keepParents key mem), ?_, ?_⟩
    · rcases from' key mem with old | ⟨own, later⟩
      · exact (from_ key old).imp_right (fun own => by rw [own]; exact ⟨rfl, mem_cons_self⟩)
      · exact .inr ⟨own, mem_cons_of_mem _ later⟩
    · rcases fromParents' key mem with old | ⟨own, later⟩
      · exact (fromParents key old).imp_right (fun own => by rw [own]; exact ⟨rfl, mem_cons_self⟩)
      · exact .inr ⟨own, mem_cons_of_mem _ later⟩
    · exact forall_mem_cons.mpr ⟨somewhere.imp (keep' _) (keepParents' _), somewhere'⟩
    · exact forall_mem_cons.mpr ⟨fun again_ => keep' _ (asItem again_), asItem'⟩

/-- What a landing leaves: nothing of the flight is out, what was owed is owed, and every item that is
queued anew is of the flight's server. -/
structure Landed (s : ViewReconcileStore) (f : Flight) (s' : ViewReconcileStore) : Prop where
  sound : Sound s'
  flights : ∀ g, g ∈ s'.flights ↔ g ∈ s.flights ∧ g ≠ f
  nextId : s'.nextId = s.nextId
  ledger : s'.ledger = s.ledger
  owed : ∀ key, Owed s key → Owed s' key
  again : ∀ key ∈ s.dirty, f.asks key = true → key ∈ s'.pending

theorem suffix_split {α : Type} {tail whole : List α} (suffix : tail <:+ whole) : whole.drop (whole.length - tail.length) = tail :=
  (suffix_iff_eq_drop.mp suffix).symm

/-- A refused flight publishes nothing, and leaves exactly its items queued. -/
structure Requeued (s : ViewReconcileStore) (f : Flight) (s' : ViewReconcileStore) : Prop extends Landed s f s' where
  leaves : ∀ rk ∈ f.keys, rk ∉ f.parents → (f.sid, rk) ∈ s'.pending
  exactly : ∀ key, key ∈ s'.pending ∨ key ∈ s'.pendingParents ↔ key ∈ s.pending ∨ key ∈ s.pendingParents ∨ f.asks key = true
  pendingOf : ∀ key ∈ s'.pending, key ∈ s.pending ∨ f.asks key = true
  undirty : ∀ key ∈ s'.dirty, f.asks key = false
  unsettled : s'.candidates = s.candidates ∧ s'.watchedEnds = s.watchedEnds ∧ s'.quiet = s.quiet ∧ s'.landed = s.landed

theorem flights_erased (sound : Sound s) (found : s.flights.find? (·.id = id) = some f) :
    ∀ g, g ∈ s.flights.eraseP (·.id = id) ↔ g ∈ s.flights ∧ g ≠ f := by
  obtain ⟨before, after, whole, erased⟩ := erase_found found
  have apart := sound.distinct
  rw [whole, map_append, map_cons, nodup_middle, nodup_cons, ← map_append] at apart
  intro g
  rw [erased, whole]
  constructor
  · intro inside
    refine ⟨?_, fun eq => apart.1 (eq ▸ mem_map_of_mem inside)⟩
    rcases mem_append.mp inside with early | late
    · exact mem_append_left _ early
    · exact mem_append_right _ (mem_cons_of_mem _ late)
  · rintro ⟨inside, other⟩
    rcases mem_append.mp inside with early | late
    · exact mem_append_left _ early
    · exact mem_append_right _ ((mem_cons.mp late).resolve_left other)

theorem requeue_requeued (sound : Sound s) (found : s.flights.find? (·.id = id) = some f) :
    Requeued s f (requeueUnstarted { s with flights := s.flights.eraseP (·.id = id) } f) := by
  have mem := List.mem_of_find?_eq_some found
  have tail := suffix_split (sound.tail f mem)
  have whole := take_append_drop (f.keys.length - f.parents.length) f.keys
  rw [tail] at whole
  obtain ⟨-, parentsOnce, -⟩ := nodup_append.mp (whole ▸ sound.once f mem)
  unfold ViewReconcileStore.requeueUnstarted
  simp only [tail]
  generalize f.keys.take (f.keys.length - f.parents.length) = leaves at whole
  obtain ⟨pending, made, once, members⟩ := requeueLeaves
    ({ s with flights := s.flights.eraseP (·.id = id) }.takeAskedAgain f) f.sid leaves sound.pendingOnce
  obtain ⟨pending', parents', made', once', parentsOnce', keep, from_, fromParents, keepParents, somewhere, asItem⟩ :=
    requeueParents { ({ s with flights := s.flights.eraseP (·.id = id) }.takeAskedAgain f) with pending := pending } f.sid
      (askedAgain { s with flights := s.flights.eraseP (·.id = id) } f) f.parents once sound.parentsOnce parentsOnce
      (sound.parentsApart f mem)
  rw [made, made']
  have inKeys : ∀ rk, rk ∈ f.keys ↔ rk ∈ leaves ∨ rk ∈ f.parents := fun rk => by rw [← whole, mem_append]
  have back : ∀ key ∈ pending', key ∈ s.pending ∨ f.asks key = true := by
    intro key queued
    rcases from_ key queued with old | ⟨own, parent⟩
    · rcases (members key).mp old with older | ⟨own, leaf⟩
      · exact .inl older
      · exact .inr ((asks_iff f key).mpr ⟨own.symm, (inKeys _).mpr (.inl leaf)⟩)
    · exact .inr ((asks_iff f key).mpr ⟨own.symm, (inKeys _).mpr (.inr parent)⟩)
  have asked : ∀ key ∈ s.dirty, f.asks key = true → key ∈ pending' := by
    intro key dirty asks
    obtain ⟨own, inside⟩ := (asks_iff f key).mp asks
    rcases (inKeys _).mp inside with leaf | parent
    · exact keep key ((members key).mpr (.inr ⟨own.symm, leaf⟩))
    · have again : (f.sid, key.2) ∈ askedAgain { s with flights := s.flights.eraseP (·.id = id) } f := by
        rw [own]
        exact mem_filter.mpr ⟨dirty, asks⟩
      have item := asItem key.2 parent again
      rw [own] at item
      exact item
  have keepAll : ∀ key ∈ s.pending, key ∈ pending' := fun key old => keep key ((members key).mpr (.inl old))
  refine {
    sound := sound.landed found rfl rfl rfl once' (fun key queued => (back key queued).imp_right (fun asks => ((asks_iff f key).mp asks).1.symm))
      parentsOnce' (fun key queued => (fromParents key queued).imp_right And.left)
    flights := flights_erased sound found
    nextId := rfl
    ledger := rfl
    owed := ?_
    again := asked
    leaves := fun rk inside other => keep _ ((members _).mpr (.inr ⟨rfl, ((inKeys rk).mp inside).resolve_right other⟩))
    exactly := ?_
    pendingOf := back
    undirty := fun key dirty => by simpa using (mem_filter.mp dirty).2
    unsettled := ⟨rfl, rfl, rfl, rfl⟩ }
  · rintro key (queued | dirty)
    · exact .inl (keepAll key queued)
    · by_cases asks : f.asks key = true
      · exact .inl (asked key dirty asks)
      · exact .inr (mem_filter.mpr ⟨dirty, by simpa using asks⟩)
  · intro key
    constructor
    · rintro (queued | parent)
      · exact (back key queued).imp_right .inr
      · rcases fromParents key parent with old | ⟨own, inside⟩
        · exact .inr (.inl old)
        · exact .inr (.inr ((asks_iff f key).mpr ⟨own.symm, (inKeys _).mpr (.inr inside)⟩))
    · rintro (queued | parent | asks)
      · exact .inl (keepAll key queued)
      · exact .inr (keepParents key parent)
      · obtain ⟨own, inside⟩ := (asks_iff f key).mp asks
        rcases (inKeys _).mp inside with leaf | parent
        · exact .inl (keep key ((members key).mpr (.inr ⟨own.symm, leaf⟩)))
        · have either := somewhere key.2 parent
          rw [own] at either
          exact either

end
section
open ViewReconcileStore
variable {s : ViewReconcileStore} {f : Flight}

/-- What the rows of an answer leave alone, and the parents that they add: `named` of them. -/
structure Follows (f : Flight) (named : String → Prop) (s s' : ViewReconcileStore) : Prop where
  flights : s'.flights = s.flights
  dirty : s'.dirty = s.dirty
  pending : s'.pending = s.pending
  nextId : s'.nextId = s.nextId
  ledger : s'.ledger = s.ledger
  parentsOnce : s.pendingParents.Nodup → s'.pendingParents.Nodup
  parents : ∀ key ∈ s'.pendingParents, key ∈ s.pendingParents ∨ key.1 = f.sid ∧ named key.2

variable {named : String → Prop}

theorem Follows.refl (s : ViewReconcileStore) : Follows f named s s :=
  ⟨rfl, rfl, rfl, rfl, rfl, id, fun _ => .inl⟩

theorem Follows.trans {s' s'' : ViewReconcileStore} (first : Follows f named s s') (second : Follows f named s' s'') :
    Follows f named s s'' where
  flights := second.flights.trans first.flights
  dirty := second.dirty.trans first.dirty
  pending := second.pending.trans first.pending
  nextId := second.nextId.trans first.nextId
  ledger := second.ledger.trans first.ledger
  parentsOnce := fun once => second.parentsOnce (first.parentsOnce once)
  parents := fun key mem => (second.parents key mem).elim (first.parents key) .inr

theorem followUp_follows (f : Flight) (isQuiet : Bool) {up : String} (names : named up) (s : ViewReconcileStore) :
    Follows f named s (s.followUp f isQuiet up) := by
  unfold ViewReconcileStore.followUp
  split
  · exact .refl s
  · split
    · exact .refl s
    · rename_i absent
      simp only [Bool.or_eq_true, queued_iff, not_or] at absent
      refine ⟨rfl, rfl, rfl, rfl, rfl, fun once => nodup_snoc once absent.2, fun key mem => ?_⟩
      rcases mem_append.mp mem with old | new
      · exact .inl old
      · rw [mem_singleton.mp new]
        exact .inr ⟨rfl, names⟩

theorem settle_follows (f : Flight) (row : ReadRow) (s : ViewReconcileStore) :
    Follows f named s (s.settle f row).1 := by
  unfold ViewReconcileStore.settle
  split
  · exact .refl s
  · split <;> exact ⟨rfl, rfl, rfl, rfl, rfl, id, fun _ => .inl⟩

theorem settled_follows (f : Flight) (row : ReadRow) (isQuiet : Bool) (s : ViewReconcileStore) :
    Follows f named s (if isQuiet then (s.settle f row).1 else (s.settle f row).1.owePage row.key) := by
  refine (settle_follows f row s).trans ?_
  split
  · exact .refl _
  · exact ⟨rfl, rfl, rfl, rfl, rfl, id, fun _ => .inl⟩

/-- The season and the show that a leaf's row names. -/
def NamedBy (f : Flight) (rows : List ReadRow) (up : String) : Prop :=
  ∃ row ∈ rows, f.asks row.key = true ∧ f.isParent row.key = false ∧ (up = row.parent ∨ up = row.grandparent)

variable {rows : List ReadRow}

theorem landRow_follows {row : ReadRow} (mem : row ∈ rows) (quiet : List Key) (overtaking : List ViewState.ViewAt)
    (s : ViewReconcileStore) : Follows f (NamedBy f rows) s (s.landRow f quiet overtaking row).1 := by
  unfold ViewReconcileStore.landRow
  split
  · rename_i survives
    simp only [surviving, Bool.and_eq_true] at survives
    have above : Follows f (NamedBy f rows) s (if f.isParent row.key then s
        else (s.followUp f (queued quiet row.key) row.parent).followUp f (queued quiet row.key) row.grandparent) := by
      split
      · exact .refl s
      · rename_i leaf
        have leaf_ := Bool.eq_false_iff.mpr leaf
        exact (followUp_follows f _ ⟨row, mem, survives.1, leaf_, .inl rfl⟩ s).trans
          (followUp_follows f _ ⟨row, mem, survives.1, leaf_, .inr rfl⟩ _)
    exact above.trans (settled_follows f row (queued quiet row.key) _)
  · exact .refl s

theorem landRows_follows {all : List ReadRow} (rows : List ReadRow) (quiet : List Key) (overtaking : List ViewState.ViewAt)
    (inside : ∀ row ∈ rows, row ∈ all) (s : ViewReconcileStore) :
    Follows f (NamedBy f all) s (landRows f quiet overtaking s rows).1 := by
  induction rows generalizing s with
  | nil => exact .refl s
  | cons row rest ih =>
    exact (landRow_follows (inside row mem_cons_self) quiet overtaking s).trans
      (ih (fun later mem => inside later (mem_cons_of_mem _ mem)) _)

/-- An answered flight queues what was asked for again, and no parent but those that its leaves name. -/
structure Answered (s : ViewReconcileStore) (f : Flight) (rows : List ReadRow) (s' : ViewReconcileStore) : Prop extends Landed s f s' where
  pendingOf : ∀ key ∈ s'.pending, key ∈ s.pending ∨ key ∈ s.dirty ∧ f.asks key = true
  kept : ∀ key ∈ s.pending, key ∈ s'.pending
  undirty : ∀ key, key ∈ s'.dirty ↔ key ∈ s.dirty ∧ f.asks key = false
  named : ∀ key ∈ s'.pendingParents, key ∈ s.pendingParents ∨ key.1 = f.sid ∧ NamedBy f rows key.2

theorem Follows.answered (sound : Sound s) {number : Nat} (found : s.flights.find? (·.id = number) = some f)
    {read : ViewReconcileStore} (follows : Follows f (NamedBy f rows) { s with flights := s.flights.eraseP (·.id = number) } read) :
    Answered s f rows { (read.dropUnsettled f).takeAskedAgain f with pending := read.pending ++ read.askedAgain f } := by
  have mem := List.mem_of_find?_eq_some found
  have again : ∀ key, key ∈ read.askedAgain f ↔ key ∈ s.dirty ∧ f.asks key = true := by
    intro key
    rw [ViewReconcileStore.askedAgain, follows.dirty, mem_filter]
  have dirty : ∀ key, key ∈ read.dirty.filter (fun key => !f.asks key) ↔ key ∈ s.dirty ∧ f.asks key = false := by
    intro key
    rw [follows.dirty, mem_filter, Bool.not_eq_true']
  have pending : ∀ key, key ∈ read.pending ++ read.askedAgain f ↔ key ∈ s.pending ∨ key ∈ s.dirty ∧ f.asks key = true := by
    intro key
    rw [mem_append, again, follows.pending]
  have once : (read.pending ++ read.askedAgain f).Nodup := by
    rw [ViewReconcileStore.askedAgain, follows.pending, follows.dirty]
    refine nodup_append.mpr ⟨sound.pendingOnce, sound.dirtyOnce.filter _, fun key queued key' asked eq => ?_⟩
    -- An item that is queued is not in the flight, and one that was asked for again is.
    have apart := sound.apart f mem key queued
    rw [eq, (mem_filter.mp asked).2] at apart
    cases apart
  exact {
    sound := sound.landed found follows.flights follows.nextId (congrArg (List.filter _) follows.dirty) once
      (fun key queued => ((pending key).mp queued).imp_right (fun asked => ((asks_iff f key).mp asked.2).1.symm))
      (follows.parentsOnce sound.parentsOnce) (fun key queued => (follows.parents key queued).imp_right And.left)
    flights := fun g => follows.flights ▸ flights_erased sound found g
    nextId := follows.nextId
    ledger := follows.ledger
    owed := by
      rintro key (queued | asked)
      · exact .inl ((pending key).mpr (.inl queued))
      · cases asks : f.asks key with
        | true => exact .inl ((pending key).mpr (.inr ⟨asked, asks⟩))
        | false => exact .inr ((dirty key).mpr ⟨asked, asks⟩)
    again := fun key asked asks => (pending key).mpr (.inr ⟨asked, asks⟩)
    pendingOf := fun key => (pending key).mp
    kept := fun key queued => (pending key).mpr (.inl queued)
    undirty := dirty
    named := follows.parents }

theorem landRead_answered (sound : Sound s) {number : Nat} (found : s.flights.find? (·.id = number) = some f) (rows : Option (List ReadRow)) :
    Answered s f (rows.getD []) (landRead { s with flights := s.flights.eraseP (·.id = number) } f rows).1 := by
  cases rows with
  | none => exact Follows.answered sound found ⟨rfl, rfl, rfl, rfl, rfl, id, fun _ => .inl⟩
  | some rows =>
    refine Follows.answered sound found (.trans ?_ (landRows_follows rows _ _ (fun _ => id) _))
    exact ⟨rfl, rfl, rfl, rfl, rfl, id, fun _ => .inl⟩

end
end PlxNative.Reconcile
