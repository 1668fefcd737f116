import PlxNative.Grant.Table
import PlxNative.Lib.Transducer

/-! Any number of workers over the one table, each at its own place in the operation it is in. A
move lets one worker call an operation, or run the next section of the one it called. -/
namespace PlxNative.Grant
open Net (Origin)
open Transducer (Event)

inductive GrantOp where
  | capture (persisted : List PlaintextConsent) (account : Text)
  /-- Any worker may settle any capture, as often as it likes. -/
  | settle (number : Nat) (machineId : Text) (origin : Origin) (evidence : InsecureEvidence)
  | answer (account machineId : Text) (choice : PlaintextChoice)
  | revoke (machineId : Text)
  | identityChanged
  | networkChanged
  | rosterReplaced (installed : List (Text × Origin))
  | offered (scope : GrantScope) (verdict : PlaintextVerdict)
  | withdrawOffer (machineId : Text)
  | grantedNow (machineId : Text) (origin : Origin)

/-- The sections of an operation, in the order of the code. -/
def GrantOp.sections (asks : List PlaintextAsk) : GrantOp → List GrantSection
  | .capture persisted account => [.loadConsent persisted account]
  | .settle number machineId origin evidence => match asks[number]? with
    | some ask => [.settle number ask machineId origin evidence]
    | none => []
  | .answer account machineId choice =>
    (if account.isEmpty then [] else [.putAnswer ⟨account, machineId, choice⟩]) ++ [.rechoose machineId choice] ++
      (if choice.allows then [] else [.refuse machineId]) ++ [.moved]
  | .revoke machineId => [.retain (.others machineId)]
  | .identityChanged => [.bumpIdentity, .clearAnswers, .countStranded, .clearOffers, .retain .none, .moved]
  | .networkChanged => [.bumpNetwork, .strand, .clearOffers, .retain .none, .moved]
  | .rosterReplaced installed => [.retain (.installed installed)]
  | .offered scope verdict => [.offer scope verdict, .moved]
  | .withdrawOffer machineId => [.withdrawOffer machineId]
  | .grantedNow machineId origin => [.countGrants machineId origin]

/-- The table, the captures that are finished, and for each worker what it has left to run and the
capture it is at. -/
structure GrantWorld where
  table : GrantTable
  asks : List PlaintextAsk
  todo : Nat → List GrantSection
  held : Nat → PlaintextAsk

inductive GrantMove where
  | call (worker : Nat) (op : GrantOp)
  | run (worker : Nat)

inductive GrantAnswer where
  | called
  /-- A worker in the middle of an operation calls no other. -/
  | busy
  | idle
  | ran (worker : Nat) (section_ : GrantSection) (result : GrantResult)

namespace GrantWorld

def new : GrantWorld := ⟨.new, [], fun _ => [], fun _ => ⟨⟨0, 0⟩, 0, []⟩⟩

/-- The captures, with the one that a section has finished. -/
def finished (asks : List PlaintextAsk) : GrantResult → List PlaintextAsk
  | .captured ask => asks ++ [ask]
  | _ => asks

/-- The world after a section of a worker, with the rest of its operation still to be run. -/
def after (w : GrantWorld) (worker : Nat) (ran : Ran) (rest : List GrantSection) : GrantWorld :=
  { table := ran.table
    asks := finished w.asks ran.result
    todo := Function.update w.todo worker (ran.next ++ rest)
    held := Function.update w.held worker ran.ask }

def step (w : GrantWorld) : GrantMove → GrantWorld × GrantAnswer
  | .call worker op => match w.todo worker with
    | [] => ({ w with todo := Function.update w.todo worker (op.sections w.asks) }, .called)
    | _ => (w, .busy)
  | .run worker => match w.todo worker with
    | [] => (w, .idle)
    | section_ :: rest =>
      let ran := section_.exec w.table (w.held worker)
      (w.after worker ran rest, .ran worker section_ ran.result)

end GrantWorld

abbrev GrantStep : Type := Event GrantWorld GrantMove GrantAnswer

section

namespace GrantAnswer

/-- An answer that does not allow has come: the consent generation moves. -/
def refuses : GrantAnswer → Bool
  | .ran _ (.refuse _) _ => true
  | _ => false

def changesIdentity : GrantAnswer → Bool
  | .ran _ .bumpIdentity _ => true
  | _ => false

def changesNetwork : GrantAnswer → Bool
  | .ran _ .bumpNetwork _ => true
  | _ => false

/-- What takes the grant of a server at an origin away, the generations apart: an answer that does
not allow the server, a revocation of it, a roster without the two, and a grant of the server
elsewhere. -/
def withdraws (machineId : Text) (origin : Origin) : GrantAnswer → Bool
  | .ran _ (.refuse refused) _ => refused = machineId
  | .ran _ (.retain kept) _ => !kept.keeps machineId origin
  | .ran _ (.settle _ _ machine moved _) (.minted none) => machine = machineId && moved ≠ origin
  | _ => false

def opens (worker : Nat) : GrantAnswer → Bool
  | .ran by_ (.loadConsent _ _) _ => by_ = worker
  | _ => false

def captures (worker : Nat) (ask : PlaintextAsk) : GrantAnswer → Bool
  | .ran by_ (.loadAnswers _ _) (.captured made) => by_ = worker && made = ask
  | _ => false

/-- A capture is settled, for a server at an origin. -/
def settles (number : Nat) (ask : PlaintextAsk) (machineId : Text) (origin : Origin) (evidence : InsecureEvidence) :
    GrantAnswer → Bool
  | .ran _ (.settle n own machine at_ seen) (.minted none) =>
    n = number && own = ask && machine = machineId && at_ = origin && seen = evidence
  | _ => false

end GrantAnswer

/-- A capture, from its first load to its last, after which nothing has changed the identity or the
network, and since whose first load no answer has refused anything. -/
def LiveCapture (past : List GrantStep) (number : Nat) (ask : PlaintextAsk) : Prop :=
  ∃ before first middle last after worker, past = before ++ first :: (middle ++ last :: after) ∧
    first.answer.opens worker = true ∧ (∀ x ∈ middle, x.answer.opens worker = false) ∧
    last.answer.captures worker ask = true ∧ last.before.asks.length = number ∧
    (∀ x ∈ middle ++ last :: after, x.answer.refuses = false) ∧
    ∀ x ∈ after, x.answer.changesIdentity = false ∧ x.answer.changesNetwork = false

/-- A consented capture was settled for this server at this origin, on evidence that is good for it,
and nothing since has taken the grant away. -/
def RestsOnConsent (past : List GrantStep) (machineId : Text) (origin : Origin) : Prop :=
  ∃ before settled after number ask evidence, past = before ++ settled :: after ∧
    settled.answer.settles number ask machineId origin evidence = true ∧ LiveCapture before number ask ∧
    ask.choice machineId = .allowed ∧ evidence.plaintextEligibility = .eligible ∧ origin.scheme = .http ∧
    (AddressScope.of origin.host).1 = evidence.plaintextScope ∧ evidence.plaintextScope.isPrivateNetwork = true ∧
    (Net.IpAddr.parse (AddressScope.bare origin.host)).isSome = true ∧
    ∀ x ∈ after, x.answer.withdraws machineId origin = false ∧ x.answer.changesIdentity = false ∧ x.answer.changesNetwork = false

end
end PlxNative.Grant
