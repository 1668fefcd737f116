import PlxNative.Grant.Workers

/-! A credential that goes out in the clear rests on consent: the generations count what has come,
a capture knows how far they were when it was made, and a grant knows its capture. -/
namespace PlxNative.Grant
open List GrantAnswer Function GrantTable
open Net (Origin)
open Transducer (Event event history history_invariant run snoc_split)

section
variable {t : GrantTable} {ask : PlaintextAsk} {s : GrantSection}

structure Settles (t : GrantTable) (ask : PlaintextAsk) (machineId : Text) (origin : Origin) (evidence : InsecureEvidence) : Prop where
  allowed : ask.choice machineId = .allowed
  eligible : evidence.plaintextEligibility = .eligible
  plaintext : origin.scheme = .http
  inScope : (AddressScope.of origin.host).1 = evidence.plaintextScope
  privat : (AddressScope.of origin.host).1.isPrivateNetwork = true
  current : ask.scope = t.scope
  unrefused : ask.consent = t.consent

variable {origin : Origin} {evidence : InsecureEvidence}

theorem mintCheck_ok {scope now : GrantScope} (ok : mintCheck origin evidence scope now = .ok ()) :
    origin.scheme = .http ∧ (AddressScope.of origin.host).1.isPrivateNetwork = true ∧
      (AddressScope.of origin.host).1 = evidence.plaintextScope ∧ evidence.plaintextEligibility = .eligible ∧ scope = now := by
  unfold mintCheck at ok
  simp only at ok
  split at ok
  · cases ok
  · rename_i plaintext
    split at ok
    · cases ok
    · rename_i privat
      simp only [Bool.or_eq_true, Bool.not_eq_true', decide_eq_true_eq, not_or, Bool.not_eq_false, not_not] at privat
      split at ok
      · cases ok
      · rename_i eligible
        split at ok
        · cases ok
        · rename_i current
          exact ⟨not_not.mp plaintext, privat.1, privat.2, not_not.mp eligible, not_not.mp current⟩

theorem settle_ok {machineId : Text} {after : GrantTable}
    (ok : ask.settle t machineId origin evidence = .ok after) :
    Settles t ask machineId origin evidence ∧
      after = t.hold (t.grants.filter (fun g => g.machineId ≠ machineId && g.scope = ask.scope) ++
        [⟨ask.scope, machineId, origin⟩]) := by
  unfold PlaintextAsk.settle at ok
  split at ok
  · cases ok
  · rename_i allows
    unfold mintConsented at ok
    split at ok
    · cases ok
    · cases checked : mintCheck origin evidence ask.scope t.scope with
      | error refusal =>
        rw [checked] at ok
        cases ok
      | ok done =>
        simp only [checked] at ok
        by_cases unrefused : ask.consent = t.consent
        · simp only [unrefused, ne_eq] at ok
          obtain ⟨plaintext, privat, inScope, eligible, current⟩ := mintCheck_ok checked
          have allowed : ask.choice machineId = .allowed := by simpa [PlaintextChoice.allows] using allows
          refine ⟨⟨allowed, eligible, plaintext, inScope, privat, current, unrefused⟩, ?_⟩
          cases ok
          rfl
        · simp only [ne_eq, unrefused] at ok
          cases ok

theorem exec_grants (worker : Nat) {g : PlaintextGrant} (held : g ∈ (s.exec t ask).table.grants) :
    g ∈ t.grants ∧ (GrantAnswer.ran worker s (s.exec t ask).result).withdraws g.machineId g.origin = false ∨
      ∃ number own evidence, (GrantAnswer.ran worker s (s.exec t ask).result).settles number own g.machineId g.origin evidence = true ∧
        Settles t own g.machineId g.origin evidence ∧ g.scope = own.scope ∧
        s = .settle number own g.machineId g.origin evidence := by
  cases s with
  | settle number own machineId origin evidence =>
    cases settled : own.settle t machineId origin evidence with
    | error refusal =>
      simp only [GrantSection.exec, settled] at held ⊢
      exact .inl ⟨held, rfl⟩
    | ok after =>
      obtain ⟨settles, rfl⟩ := settle_ok settled
      simp only [GrantSection.exec, settled, hold, mem_append, mem_filter, mem_singleton] at held
      simp only [GrantSection.exec, settled]
      rcases held with ⟨old, kept⟩ | rfl
      · refine .inl ⟨old, ?_⟩
        simp only [Bool.and_eq_true, decide_eq_true_eq] at kept
        simp [GrantAnswer.withdraws, Ne.symm kept.1]
      · exact .inr ⟨number, own, evidence, by simp [GrantAnswer.settles], settles, rfl, rfl⟩
  | refuse machineId =>
    obtain ⟨old, other⟩ := mem_filter.mp held
    refine .inl ⟨old, ?_⟩
    simp only [decide_eq_true_eq] at other
    simp [GrantAnswer.withdraws, Ne.symm other]
  | retain kept =>
    have kept := mem_filter.mp held
    exact .inl ⟨kept.1, by simpa [GrantAnswer.withdraws] using kept.2⟩
  | countGrants machineId origin =>
    simp only [GrantSection.exec] at held
    split at held <;> exact .inl ⟨held, rfl⟩
  | _ => exact .inl ⟨held, rfl⟩

theorem exec_generations (t : GrantTable) (ask : PlaintextAsk) (s : GrantSection) (worker : Nat) :
    (s.exec t ask).table.identity = t.identity + ([GrantAnswer.ran worker s (s.exec t ask).result].countP (·.changesIdentity)) ∧
    (s.exec t ask).table.network = t.network + ([GrantAnswer.ran worker s (s.exec t ask).result].countP (·.changesNetwork)) ∧
    (s.exec t ask).table.consent = t.consent + ([GrantAnswer.ran worker s (s.exec t ask).result].countP (·.refuses)) := by
  cases s with
  | settle number own machineId origin evidence =>
    cases settled : own.settle t machineId origin evidence with
    | error refusal => simp [GrantSection.exec, settled, changesIdentity, changesNetwork, refuses]
    | ok after =>
      obtain ⟨-, rfl⟩ := settle_ok settled
      simp [GrantSection.exec, settled, hold, changesIdentity, changesNetwork, refuses]
  | countGrants machineId origin =>
    simp only [GrantSection.exec]
    split <;> exact ⟨rfl, rfl, rfl⟩
  | _ => exact ⟨rfl, rfl, rfl⟩

end
section

def identities (past : List GrantStep) : Nat := past.countP (·.answer.changesIdentity)

def networks (past : List GrantStep) : Nat := past.countP (·.answer.changesNetwork)

def refusals (past : List GrantStep) : Nat := past.countP (·.answer.refuses)

theorem none_later {p : GrantStep → Bool} {front rest : List GrantStep} {generation : Nat} (early : generation ≤ 1 + front.countP p)
    (current : generation = 1 + (front ++ rest).countP p) : ∀ x ∈ rest, p x = false := by
  rw [countP_append] at current
  have none_ : rest.countP p = 0 := by omega
  intro x mem
  simpa using countP_eq_zero.mp none_ x mem

end

section
variable {past : List GrantStep} {x : GrantStep} {worker number : Nat} {ask : PlaintextAsk}

/-- A worker is in a capture that read the consent generation of its beginning. -/
def Opened (past : List GrantStep) (worker consent : Nat) : Prop :=
  ∃ before first middle, past = before ++ first :: middle ∧ first.answer.opens worker = true ∧
    (∀ y ∈ middle, y.answer.opens worker = false) ∧ consent ≤ 1 + refusals before

theorem Opened.snoc {consent : Nat} (opened : Opened past worker consent) (other : x.answer.opens worker = false) :
    Opened (past ++ [x]) worker consent := by
  obtain ⟨before, first, middle, rfl, opens, none_, early⟩ := opened
  refine ⟨before, first, middle ++ [x], by simp, opens, fun y mem => ?_, early⟩
  rcases mem_append.mp mem with old | now
  · exact none_ y old
  · rw [mem_singleton.mp now]
    exact other

/-- A capture that is finished, with no generation from after its end, nor any consent generation
from after its beginning. -/
def Captured (past : List GrantStep) (number : Nat) (ask : PlaintextAsk) : Prop :=
  ∃ before first middle last after worker, past = before ++ first :: (middle ++ last :: after) ∧
    first.answer.opens worker = true ∧ (∀ y ∈ middle, y.answer.opens worker = false) ∧
    last.answer.captures worker ask = true ∧ last.before.asks.length = number ∧ ask.consent ≤ 1 + refusals before ∧
    ask.scope.identity ≤ 1 + identities (before ++ first :: (middle ++ [last])) ∧
    ask.scope.network ≤ 1 + networks (before ++ first :: (middle ++ [last]))

theorem Captured.snoc (captured : Captured past number ask) : Captured (past ++ [x]) number ask := by
  obtain ⟨before, first, middle, last, after, worker, rfl, rest⟩ := captured
  exact ⟨before, first, middle, last, after ++ [x], worker, by simp, rest⟩

theorem Captured.live (captured : Captured past number ask) (unrefused : ask.consent = 1 + refusals past)
    (identity : ask.scope.identity = 1 + identities past) (network : ask.scope.network = 1 + networks past) :
    LiveCapture past number ask := by
  obtain ⟨before, first, middle, last, after, worker, rfl, opens, none_, captures, length, early, known, met⟩ := captured
  have whole : before ++ first :: (middle ++ last :: after) = before ++ first :: (middle ++ [last]) ++ after := by simp
  refine ⟨before, first, middle, last, after, worker, rfl, opens, none_, captures, length, fun y mem => ?_, fun y mem => ⟨?_, ?_⟩⟩
  · exact none_later (p := (·.answer.refuses)) early unrefused y (mem_cons_of_mem _ mem)
  · rw [whole] at identity
    exact none_later (p := (·.answer.changesIdentity)) known identity y mem
  · rw [whole] at network
    exact none_later (p := (·.answer.changesNetwork)) met network y mem

/-- A grant has a settled capture behind it, and nothing since has taken it away. -/
def Backed (past : List GrantStep) (g : PlaintextGrant) : Prop :=
  ∃ before settled after number own evidence, past = before ++ settled :: after ∧
    settled.answer.settles number own g.machineId g.origin evidence = true ∧ LiveCapture before number own ∧
    Settles settled.before.table own g.machineId g.origin evidence ∧
    g.scope.identity ≤ 1 + identities (before ++ [settled]) ∧ g.scope.network ≤ 1 + networks (before ++ [settled]) ∧
    ∀ y ∈ after, y.answer.withdraws g.machineId g.origin = false

variable {g : PlaintextGrant}

theorem Backed.snoc (backed : Backed past g) (kept : x.answer.withdraws g.machineId g.origin = false) :
    Backed (past ++ [x]) g := by
  obtain ⟨before, settled, after, number, own, evidence, rfl, settles, live, met, known, seen, kept_⟩ := backed
  refine ⟨before, settled, after ++ [x], number, own, evidence, by simp, settles, live, met, known, seen, fun y mem => ?_⟩
  rcases mem_append.mp mem with old | now
  · exact kept_ y old
  · rw [mem_singleton.mp now]
    exact kept

theorem Backed.rests (backed : Backed past g) (identity : g.scope.identity = 1 + identities past)
    (network : g.scope.network = 1 + networks past) : RestsOnConsent past g.machineId g.origin := by
  obtain ⟨before, settled, after, number, own, evidence, rfl, settles, live, met, known, seen, kept⟩ := backed
  rw [show before ++ settled :: after = before ++ [settled] ++ after by simp] at identity network
  refine ⟨before, settled, after, number, own, evidence, rfl, settles, live, met.allowed, met.eligible, met.plaintext, met.inScope,
    met.inScope ▸ met.privat, AddressScope.numeric met.privat, fun y mem => ⟨kept y mem, ?_, ?_⟩⟩
  · exact none_later (p := (·.answer.changesIdentity)) known identity y mem
  · exact none_later (p := (·.answer.changesNetwork)) seen network y mem

end
section
variable {past : List GrantStep} {w : GrantWorld}

namespace GrantSection

def loads : GrantSection → Bool
  | .loadConsent _ _ | .loadIdentity _ _ | .loadNetwork _ _ | .loadAnswers _ _ => true
  | _ => false

/-- What a worker has when the section is next. -/
def Ready (past : List GrantStep) (table : GrantTable) (asks : List PlaintextAsk) (worker : Nat) (held : PlaintextAsk) : GrantSection → Prop
  | .loadIdentity _ _ => Opened past worker held.consent
  | .loadNetwork _ _ => Opened past worker held.consent ∧ held.scope.identity ≤ table.identity
  | .loadAnswers _ _ =>
    Opened past worker held.consent ∧ held.scope.identity ≤ table.identity ∧ held.scope.network ≤ table.network
  | .settle number ask _ _ _ => asks[number]? = some ask
  | _ => True

/-- A section that is no load and settles nothing. -/
def plain : GrantSection → Bool
  | .loadConsent _ _ | .loadIdentity _ _ | .loadNetwork _ _ | .loadAnswers _ _ | .settle _ _ _ _ _ => false
  | _ => true

variable {s : GrantSection}

theorem Ready.of_plain {table : GrantTable} {asks : List PlaintextAsk} {worker : Nat} {held : PlaintextAsk}
    (plain : s.plain = true) : s.Ready past table asks worker held := by
  cases s with
  | loadConsent | loadIdentity | loadNetwork | loadAnswers | settle => cases plain
  | _ => trivial

theorem loads_of_plain (plain : s.plain = true) : s.loads = false := by
  cases s with
  | loadConsent | loadIdentity | loadNetwork | loadAnswers => cases plain
  | _ => rfl

theorem exec_next (t : GrantTable) (ask : PlaintextAsk) (other : s.loads = false) :
    (s.exec t ask).next.all plain = true ∧ (s.exec t ask).ask = ask ∧ ∀ made, (s.exec t ask).result ≠ .captured made := by
  cases s with
  | loadConsent | loadIdentity | loadNetwork | loadAnswers => cases other
  | settle number own machineId origin evidence =>
    simp only [exec]
    split <;> exact ⟨rfl, rfl, fun _ => nofun⟩
  | withdrawOffer machineId =>
    refine ⟨?_, rfl, fun _ => nofun⟩
    simp only [exec]
    split <;> rfl
  | retain kept =>
    refine ⟨?_, rfl, fun _ => nofun⟩
    simp only [exec]
    split <;> rfl
  | countStranded =>
    refine ⟨?_, rfl, fun _ => nofun⟩
    simp only [exec]
    split <;> rfl
  | countGrants machineId origin =>
    simp only [exec]
    split <;> exact ⟨rfl, rfl, fun _ => nofun⟩
  | _ => exact ⟨rfl, rfl, fun _ => nofun⟩

end GrantSection

variable {s : GrantSection} {x : GrantStep} {worker : Nat} {asks : List PlaintextAsk}

variable {held : PlaintextAsk}

theorem GrantSection.Ready.snoc {table after : GrantTable}
    (ready : s.Ready past table asks worker held) (other : x.answer.opens worker = false)
    (more : List PlaintextAsk) (identity : table.identity ≤ after.identity) (network : table.network ≤ after.network) :
    s.Ready (past ++ [x]) after (asks ++ more) worker held := by
  cases s with
  | loadIdentity => exact Opened.snoc ready other
  | loadNetwork => exact ⟨ready.1.snoc other, Nat.le_trans ready.2 identity⟩
  | loadAnswers => exact ⟨ready.1.snoc other, Nat.le_trans ready.2.1 identity, Nat.le_trans ready.2.2 network⟩
  | settle number ask =>
    have found : asks[number]? = some ask := ready
    exact (List.getElem?_append_left (List.getElem?_eq_some_iff.mp found).1).trans found
  | _ => trivial

/-- Sections that a worker may be left with. -/
def Runs (past : List GrantStep) (table : GrantTable) (asks : List PlaintextAsk) (worker : Nat) (held : PlaintextAsk)
    (todo : List GrantSection) : Prop :=
  (∀ s ∈ todo, s.Ready past table asks worker held) ∧ ((∃ s ∈ todo, s.loads = true) → ∃ s, todo = [s])

variable {table : GrantTable}

theorem Runs.of_plain {todo : List GrantSection}
    (plain : todo.all GrantSection.plain = true) : Runs past table asks worker held todo := by
  rw [all_eq_true] at plain
  refine ⟨fun s mem => .of_plain (plain s mem), fun ⟨s, mem, loads⟩ => ?_⟩
  rw [GrantSection.loads_of_plain (plain s mem)] at loads
  cases loads

theorem Runs.single
    (ready : s.Ready past table asks worker held) : Runs past table asks worker held [s] :=
  ⟨fun _ mem => mem_singleton.mp mem ▸ ready, fun _ => ⟨s, rfl⟩⟩

theorem sections_run (op : GrantOp) :
    Runs past table asks worker held (op.sections asks) := by
  cases op with
  | capture persisted account => exact .single trivial
  | settle number machineId origin evidence =>
    cases found : asks[number]? with
    | none =>
      simp only [GrantOp.sections, found]
      exact .of_plain rfl
    | some ask =>
      simp only [GrantOp.sections, found]
      exact .single found
  | answer account machineId choice =>
    refine .of_plain ?_
    simp only [GrantOp.sections]
    split <;> split <;> rfl
  | _ => exact .of_plain rfl

/-- What a run keeps: the generations count what came, every worker is ready for what it has left,
the captures are known, and every grant is backed. -/
structure Consented (past : List GrantStep) (w : GrantWorld) : Prop where
  identity : w.table.identity = 1 + identities past
  network : w.table.network = 1 + networks past
  consent : w.table.consent = 1 + refusals past
  runs : ∀ worker, Runs past w.table w.asks worker (w.held worker) (w.todo worker)
  asks : ∀ number ask, w.asks[number]? = some ask → Captured past number ask
  grants : ∀ g ∈ w.table.grants, Backed past g

theorem new_consented : Consented [] .new where
  identity := rfl
  network := rfl
  consent := rfl
  runs := fun _ => .of_plain rfl
  asks := fun _ _ found => by cases found
  grants := fun _ mem => absurd mem not_mem_nil

theorem generations_snoc (consented : Consented past w) (worker : Nat) (s : GrantSection)
    (ran : x.answer = .ran worker s (s.exec w.table (w.held worker)).result) :
    (s.exec w.table (w.held worker)).table.identity = 1 + identities (past ++ [x]) ∧
    (s.exec w.table (w.held worker)).table.network = 1 + networks (past ++ [x]) ∧
    (s.exec w.table (w.held worker)).table.consent = 1 + refusals (past ++ [x]) := by
  obtain ⟨identity, network, consent⟩ := exec_generations w.table (w.held worker) s worker
  refine ⟨?_, ?_, ?_⟩
  · rw [identity, consented.identity, ← ran]
    simp only [identities, countP_append, countP_singleton, Nat.add_assoc]
  · rw [network, consented.network, ← ran]
    simp only [networks, countP_append, countP_singleton, Nat.add_assoc]
  · rw [consent, consented.consent, ← ran]
    simp only [refusals, countP_append, countP_singleton, Nat.add_assoc]

variable {rest : List GrantSection}

section
variable (consented : Consented past w)
include consented

theorem grants_snoc
    (next : w.todo worker = s :: rest) (before : x.before = w)
    (ran : x.answer = .ran worker s (s.exec w.table (w.held worker)).result) :
    ∀ g ∈ (s.exec w.table (w.held worker)).table.grants, Backed (past ++ [x]) g := by
  intro g held
  rcases exec_grants worker held with ⟨old, kept⟩ | ⟨number, own, evidence, settles, met, scope, rfl⟩
  · exact (consented.grants g old).snoc (by rw [ran]; exact kept)
  · have known : w.asks[number]? = some own := by
      have ready := (consented.runs worker).1 _ (by rw [next]; exact mem_cons_self)
      exact ready
    have current : own.scope = ⟨1 + identities past, 1 + networks past⟩ := by
      rw [met.current, GrantTable.scope, consented.identity, consented.network]
    have live := (consented.asks number own known).live (met.unrefused.trans consented.consent) (by rw [current]) (by rw [current])
    refine ⟨past, x, [], number, own, evidence, rfl, by rw [ran]; exact settles, live, by rw [before]; exact met, ?_, ?_,
      fun _ mem => absurd mem not_mem_nil⟩
    · rw [scope, current]
      simp [identities]
    · rw [scope, current]
      simp [networks]

theorem captured_snoc
    (next : w.todo worker = s :: rest) (before : x.before = w) {made : PlaintextAsk}
    (ran : x.answer = .ran worker s (s.exec w.table (w.held worker)).result)
    (captured : (s.exec w.table (w.held worker)).result = .captured made) : Captured (past ++ [x]) w.asks.length made := by
  cases loads : s.loads with
  | false => exact absurd captured ((GrantSection.exec_next w.table (w.held worker) loads).2.2 made)
  | true =>
    have ready := (consented.runs worker).1 s (by rw [next]; exact mem_cons_self)
    cases s with
    | loadAnswers persisted account =>
      obtain ⟨⟨early, first, middle, rfl, opens, none_, consent⟩, identity, network⟩ := ready
      cases captured
      have here : early ++ first :: middle ++ [x] = early ++ first :: (middle ++ [x]) := by simp
      refine ⟨early, first, middle, x, [], worker, here, opens, none_, ?_, by rw [before], consent, ?_, ?_⟩
      · rw [ran]
        simp [GrantAnswer.captures, GrantSection.exec]
      · rw [consented.identity] at identity
        rw [← here]
        exact Nat.le_trans identity (Nat.add_le_add_left (sublist_append_left _ _).countP_le 1)
      · rw [consented.network] at network
        rw [← here]
        exact Nat.le_trans network (Nat.add_le_add_left (sublist_append_left _ _).countP_le 1)
    | loadConsent | loadIdentity | loadNetwork => cases captured
    | _ => cases loads

theorem runs_own
    (next : w.todo worker = s :: rest) (more : List PlaintextAsk)
    (ran : x.answer = .ran worker s (s.exec w.table (w.held worker)).result) :
    Runs (past ++ [x]) (s.exec w.table (w.held worker)).table (w.asks ++ more) worker (s.exec w.table (w.held worker)).ask
      ((s.exec w.table (w.held worker)).next ++ rest) := by
  obtain ⟨ready, alone⟩ := consented.runs worker
  rw [next] at ready alone
  obtain ⟨identity, network, consent⟩ := generations_snoc consented worker s ran
  have counted := consented.consent
  cases loads : s.loads with
  | false =>
    obtain ⟨plain, eq, -⟩ := GrantSection.exec_next w.table (w.held worker) loads
    have opens : x.answer.opens worker = false := by
      rw [ran]
      cases s <;> first | rfl | cases loads
    rw [eq]
    refine ⟨fun other mem => ?_, fun ⟨other, mem, loading⟩ => ?_⟩
    · rcases mem_append.mp mem with now | later
      · exact .of_plain (all_eq_true.mp plain other now)
      · refine (ready other (mem_cons_of_mem _ later)).snoc opens more ?_ ?_
        · rw [identity, consented.identity]
          exact Nat.add_le_add_left (sublist_append_left _ _).countP_le 1
        · rw [network, consented.network]
          exact Nat.add_le_add_left (sublist_append_left _ _).countP_le 1
    · rcases mem_append.mp mem with now | later
      · rw [GrantSection.loads_of_plain (all_eq_true.mp plain other now)] at loading
        cases loading
      · obtain ⟨only, eq⟩ := alone ⟨other, mem_cons_of_mem _ later, loading⟩
        rw [(List.cons.inj eq).2] at later
        cases later
  | true =>
    obtain ⟨only, eq⟩ := alone ⟨s, mem_cons_self, loads⟩
    obtain ⟨-, rfl⟩ := List.cons.inj eq
    have own := ready s mem_cons_self
    cases s with
    | loadConsent persisted account =>
      refine .single ⟨past, x, [], rfl, ?_, fun _ mem => absurd mem not_mem_nil, Nat.le_of_eq counted⟩
      rw [ran]
      exact decide_eq_true rfl
    | loadIdentity persisted account =>
      have opens : x.answer.opens worker = false := by rw [ran]; rfl
      exact .single ⟨Opened.snoc own opens, Nat.le_refl _⟩
    | loadNetwork persisted account =>
      have opens : x.answer.opens worker = false := by rw [ran]; rfl
      exact .single ⟨own.1.snoc opens, own.2, Nat.le_refl _⟩
    | loadAnswers persisted account => exact .of_plain rfl
    | _ => cases loads

theorem runs_other {worker other : Nat} (apart : other ≠ worker)
    (more : List PlaintextAsk) (ran : x.answer = .ran worker s (s.exec w.table (w.held worker)).result) :
    Runs (past ++ [x]) (s.exec w.table (w.held worker)).table (w.asks ++ more) other (w.held other) (w.todo other) := by
  obtain ⟨ready, alone⟩ := consented.runs other
  obtain ⟨identity, network, -⟩ := generations_snoc consented worker s ran
  have opens : x.answer.opens other = false := by
    rw [ran]
    cases s <;> first | rfl | exact decide_eq_false (Ne.symm apart)
  refine ⟨fun s' mem => (ready s' mem).snoc opens more ?_ ?_, alone⟩
  · rw [identity, consented.identity]
    exact Nat.add_le_add_left (sublist_append_left _ _).countP_le 1
  · rw [network, consented.network]
    exact Nat.add_le_add_left (sublist_append_left _ _).countP_le 1

theorem Consented.still {todo : Nat → List GrantSection}
    (answered : x.answer = .called ∨ x.answer = .busy ∨ x.answer = .idle)
    (called : ∀ worker, todo worker = w.todo worker ∨ ∃ op : GrantOp, todo worker = op.sections w.asks) :
    Consented (past ++ [x]) { w with todo := todo } := by
  have identity : x.answer.changesIdentity = false := by rcases answered with eq | eq | eq <;> rw [eq] <;> rfl
  have network : x.answer.changesNetwork = false := by rcases answered with eq | eq | eq <;> rw [eq] <;> rfl
  have consent : x.answer.refuses = false := by rcases answered with eq | eq | eq <;> rw [eq] <;> rfl
  have opens : ∀ worker, x.answer.opens worker = false := by rcases answered with eq | eq | eq <;> rw [eq] <;> exact fun _ => rfl
  have withdraws : ∀ machineId origin, x.answer.withdraws machineId origin = false := by
    rcases answered with eq | eq | eq <;> rw [eq] <;> exact fun _ _ => rfl
  refine ⟨?_, ?_, ?_, fun worker => ?_, fun number ask found => (consented.asks number ask found).snoc,
    fun g held => (consented.grants g held).snoc (withdraws _ _)⟩
  · simpa [identities, identity] using consented.identity
  · simpa [networks, network] using consented.network
  · simpa [refusals, consent] using consented.consent
  · show Runs _ _ _ _ _ (todo worker)
    rcases called worker with eq | ⟨op, eq⟩
    · obtain ⟨ready, alone⟩ := consented.runs worker
      rw [eq]
      refine ⟨fun s mem => ?_, alone⟩
      have kept := (ready s mem).snoc (opens worker) [] (Nat.le_refl _) (Nat.le_refl _)
      rwa [append_nil] at kept
    · rw [eq]
      exact sections_run op

theorem Consented.step (move : GrantMove) :
    Consented (past ++ [event GrantWorld.step w move]) (w.step move).1 := by
  cases move with
  | call worker op =>
    cases next : w.todo worker with
    | nil =>
      simp only [event, GrantWorld.step, next]
      refine consented.still ?_ (fun other => ?_)
      · exact .inl rfl
      · by_cases eq : other = worker
        · exact .inr ⟨op, by rw [eq, update_self]⟩
        · exact .inl (update_of_ne eq _ _)
    | cons s rest =>
      simp only [event, GrantWorld.step, next]
      refine consented.still ?_ (fun _ => .inl rfl)
      exact .inr (.inl rfl)
  | run worker =>
    cases next : w.todo worker with
    | nil =>
      simp only [event, GrantWorld.step, next]
      refine consented.still ?_ (fun _ => .inl rfl)
      exact .inr (.inr rfl)
    | cons s rest =>
      simp only [event, GrantWorld.step, next]
      generalize moved : (Event.mk w (GrantMove.run worker)
        (GrantAnswer.ran worker s (s.exec w.table (w.held worker)).result)
        (w.after worker (s.exec w.table (w.held worker)) rest) : GrantStep) = x
      have before : x.before = w := by rw [← moved]
      have ran : x.answer = .ran worker s (s.exec w.table (w.held worker)).result := by rw [← moved]
      obtain ⟨identity, network, consent⟩ := generations_snoc consented worker s ran
      have more : ∃ more, GrantWorld.finished w.asks (s.exec w.table (w.held worker)).result = w.asks ++ more := by
        cases (s.exec w.table (w.held worker)).result with
        | captured made => exact ⟨[made], rfl⟩
        | _ => exact ⟨[], (append_nil _).symm⟩
      obtain ⟨more, asked⟩ := more
      refine ⟨identity, network, consent, fun other => ?_, fun number ask found => ?_, grants_snoc consented next before ran⟩
      · simp only [GrantWorld.after, asked]
        by_cases eq : other = worker
        · subst eq
          rw [update_self, update_self]
          exact runs_own consented next more ran
        · rw [update_of_ne eq, update_of_ne eq]
          exact runs_other consented eq more ran
      · simp only [GrantWorld.after] at found
        cases result : (s.exec w.table (w.held worker)).result with
        | captured made =>
          rw [result] at found
          simp only [GrantWorld.finished, List.getElem?_append] at found
          split at found
          · exact (consented.asks number ask found).snoc
          · have last : number = w.asks.length := by
              have inside := (List.getElem?_eq_some_iff.mp found).1
              simp at inside
              omega
            subst last
            simp at found
            exact found ▸ captured_snoc consented next before ran result
        | unit | minted | granted =>
          rw [result] at found
          exact (consented.asks number ask found).snoc

end

theorem run_consented (moves : List GrantMove) :
    Consented (history GrantWorld.step .new moves) (run GrantWorld.step .new moves) :=
  history_invariant GrantWorld.step (fun _ _ move consented => consented.step move) new_consented moves

end
section

variable {w : GrantWorld}

theorem Consented.admits {past : List GrantStep} (consented : Consented past w) {machineId : Text} {origin : Origin}
    (admitted : Grant.admits w.table.grants w.table.scope (some machineId) origin = true) : RestsOnConsent past machineId origin := by
  obtain ⟨g, held, now⟩ := any_eq_true.mp admitted
  simp only [Bool.and_eq_true, decide_eq_true_eq, Option.all_some] at now
  obtain ⟨⟨scope, rfl⟩, rfl⟩ := now
  refine (consented.grants g held).rests ?_ ?_
  · rw [scope]
    exact consented.identity
  · rw [scope]
    exact consented.network

theorem granted_check {t : GrantTable} {ask : PlaintextAsk} {s : GrantSection} (granted : (s.exec t ask).result = .granted true) :
    ∃ machineId origin, s = .checkGrants machineId origin ∧ admits t.grants t.scope (some machineId) origin = true := by
  cases s with
  | checkGrants machineId origin => exact ⟨machineId, origin, rfl, GrantResult.granted.inj granted⟩
  | settle number own machineId origin evidence =>
    simp only [GrantSection.exec] at granted
    split at granted <;> cases granted
  | countGrants machineId origin =>
    simp only [GrantSection.exec] at granted
    split at granted <;> cases granted
  | _ => cases granted

theorem step_granted {worker : Nat} {section_ : GrantSection}
    (answered : (w.step (.run worker)).2 = .ran worker section_ (.granted true)) :
    ∃ machineId origin, section_ = .checkGrants machineId origin ∧
      admits w.table.grants w.table.scope (some machineId) origin = true := by
  cases next : w.todo worker with
  | nil =>
    simp only [GrantWorld.step, next] at answered
    cases answered
  | cons s rest =>
    simp only [GrantWorld.step, next, GrantAnswer.ran.injEq, true_and] at answered
    obtain ⟨rfl, granted⟩ := answered
    exact granted_check granted

/-- After every interleaving of any number of workers: a server's credential that may go to an
origin in the clear, asked at once or load by load, rests on a consent that is still live. -/
theorem plaintext_rests_on_consent (moves : List GrantMove) :
    (∀ machineId origin, (run GrantWorld.step .new moves).table.grantedNow machineId origin = true →
      RestsOnConsent (history GrantWorld.step .new moves) machineId origin) ∧
    (∀ worker section_, ((run GrantWorld.step .new moves).step (.run worker)).2 = .ran worker section_ (.granted true) →
      ∃ machineId origin, section_ = .checkGrants machineId origin ∧
        RestsOnConsent (history GrantWorld.step .new moves) machineId origin) ∧
    ∀ machineId origin, (run GrantWorld.step .new moves).table.allowedFor .httpsOnly machineId origin = true → origin.isTls = false →
      RestsOnConsent (history GrantWorld.step .new moves) machineId origin := by
  have consented := run_consented moves
  have now : ∀ machineId origin, (run GrantWorld.step .new moves).table.grantedNow machineId origin = true →
      RestsOnConsent (history GrantWorld.step .new moves) machineId origin := by
    intro machineId origin granted
    simp only [grantedNow, GrantTable.granted, Bool.and_eq_true] at granted
    exact consented.admits granted.2.2
  refine ⟨now, fun worker section_ answered => ?_, fun machineId origin allowed plaintext => now machineId origin ?_⟩
  · obtain ⟨machineId, origin, same, admitted⟩ := step_granted answered
    exact ⟨machineId, origin, same, consented.admits admitted⟩
  · simpa [allowedFor, CredentialPolicy.mayCarryCredential, plaintext] using allowed

/-- An answer, a capture, its settling, and a credential that may go out in the clear. -/
theorem plaintext_rests_on_consent_once :
    RestsOnConsent (history GrantWorld.step .new
      [.call 0 (.answer "a".toList "m".toList .allowed), .run 0, .run 0, .run 0,
        .call 0 (.capture [] "a".toList), .run 0, .run 0, .run 0, .run 0,
        .call 0 (.settle 0 "m".toList ⟨.http, "192.168.0.10".toList, 32400⟩
          ⟨⟨.tls, .timeout, .absent, .absent⟩, true, true, true, false, .private_, .v4, true⟩), .run 0])
      "m".toList ⟨.http, "192.168.0.10".toList, 32400⟩ := by
  refine (plaintext_rests_on_consent _).1 _ _ ?_
  decide +kernel

end
end PlxNative.Grant
