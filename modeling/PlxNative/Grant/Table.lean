import PlxNative.Net.IpAddr
import PlxNative.Net.Origin

/-! The plaintext grants: which server's credential may go to which origin in the clear. A section
is what one lock covers, or one load or store outside the locks, and is one atomic step. -/
namespace PlxNative.Grant
open Net (IpAddr Ipv4Addr)
open Text

inductive AddressScope where
  | private_
  | linkLocal
  | uniqueLocal
  | loopback
  | public_
  /-- Not a literal at all. -/
  | name
deriving DecidableEq

inductive AddressFamily where
  | v4
  | v6
  | unknown
deriving DecidableEq

namespace AddressScope

def ofV4 (a : Ipv4Addr) : AddressScope :=
  if a.isLoopback then .loopback
  else if a.isPrivate then .private_
  else if a.isLinkLocal then .linkLocal
  else .public_

def ofV6 (segments : List Nat) : AddressScope :=
  let first := segments.headD 0
  if IpAddr.isLoopbackV6 segments then .loopback
  else if first &&& 0xfe00 = 0xfc00 then .uniqueLocal
  else if first &&& 0xffc0 = 0xfe80 then .linkLocal
  else .public_

def bare (address : Text) : Text :=
  match stripPrefix ['['] address with
  | some h => (stripSuffix [']'] h).getD h
  | none => address

/-- An address as it is advertised: a dotted quad, a v6 literal with or without brackets, or a name. -/
def of (address : Text) : AddressScope × AddressFamily :=
  match IpAddr.parse (bare address) with
  | none => (.name, .unknown)
  | some (.v4 a) => (ofV4 a, .v4)
  | some (.v6 segments) => match IpAddr.toIpv4Mapped segments with
    | some a => (ofV4 a, .v4)
    | none => (ofV6 segments, .v6)

/-- The scopes that a credential may ever go to in the clear. -/
def isPrivateNetwork : AddressScope → Bool
  | .private_ | .linkLocal | .uniqueLocal => true
  | _ => false

end AddressScope

inductive RouteOutcome where
  | absent
  | notAttempted
  | timeout
  | dns
  | tls
  | refused
  | transportOther
  | unknown
  | unauthorized
  | wrongServer
  | answered4xx
  | answered5xx
  | answeredOther
  | verified
deriving DecidableEq

namespace RouteOutcome

def settled (r : RouteOutcome) : Bool := r ≠ .notAttempted

def answeredOverHttps : RouteOutcome → Bool
  | .verified | .unauthorized | .answered4xx | .answered5xx | .answeredOther => true
  | _ => false

end RouteOutcome

structure HttpsRoutes where
  lanPlexDirect : RouteOutcome
  publicPlexDirect : RouteOutcome
  customHttps : RouteOutcome
  relay : RouteOutcome
deriving DecidableEq

def HttpsRoutes.all (r : HttpsRoutes) : List RouteOutcome := [r.lanPlexDirect, r.publicPlexDirect, r.customHttps, r.relay]

structure InsecureEvidence where
  https : HttpsRoutes
  plaintextLocal : Bool
  publicAddressMatches : Bool
  owned : Bool
  httpsRequired : Bool
  plaintextScope : AddressScope
  plaintextFamily : AddressFamily
  identityVerified : Bool
deriving DecidableEq

inductive PlaintextEligibility where
  | eligible
  | httpsRequired
  | notLocal
  | notSameNetwork
  | notPrivateAddress
  | identityUnverified
  | httpsUnsettled
  | httpsAnswered
deriving DecidableEq

/-- The first condition that fails is the reason given. -/
def InsecureEvidence.plaintextEligibility (e : InsecureEvidence) : PlaintextEligibility :=
  if e.httpsRequired then .httpsRequired
  else if !e.plaintextLocal then .notLocal
  else if !e.publicAddressMatches then .notSameNetwork
  else if !e.plaintextScope.isPrivateNetwork then .notPrivateAddress
  else if !e.identityVerified then .identityUnverified
  else if !e.https.all.all (·.settled) then .httpsUnsettled
  else if e.https.all.any (·.answeredOverHttps) then .httpsAnswered
  else .eligible

theorem AddressScope.numeric {host : Text} (privat : (of host).1.isPrivateNetwork = true) : (IpAddr.parse (bare host)).isSome := by
  unfold of at privat
  cases literal : IpAddr.parse (bare host) with
  | none =>
    rw [literal] at privat
    cases privat
  | some address => rfl

open Net (Origin Scheme)

inductive CredentialPolicy where
  | httpsOnly
  | allowPlaintext
deriving DecidableEq

def CredentialPolicy.mayCarryCredential (policy : CredentialPolicy) (origin : Origin) : Bool :=
  origin.isTls || policy = .allowPlaintext

inductive PlaintextChoice where
  | undecided
  | allowed
  | declined
  | revoked
deriving DecidableEq

def PlaintextChoice.allows (choice : PlaintextChoice) : Bool := choice = .allowed

structure GrantScope where
  identity : Nat
  network : Nat
deriving DecidableEq

structure PlaintextGrant where
  scope : GrantScope
  machineId : Text
  origin : Origin

structure PlaintextConsent where
  machineId : Text
  account : Text
  choice : PlaintextChoice

structure Answer where
  account : Text
  machineId : Text
  choice : PlaintextChoice
deriving DecidableEq

structure PlaintextVerdict where
  machineId : Text
  name : Text
  sharedBy : Text
  eligibility : PlaintextEligibility
  choice : PlaintextChoice

def PlaintextVerdict.offers (v : PlaintextVerdict) : Bool := v.eligibility = .eligible

/-- What one discovery run may do: the generations and the answers that its capture read. -/
structure PlaintextAsk where
  scope : GrantScope
  consent : Nat
  choices : List (Text × PlaintextChoice)
deriving DecidableEq

def PlaintextAsk.choice (ask : PlaintextAsk) (machineId : Text) : PlaintextChoice :=
  ((ask.choices.find? (fun c => c.1 = machineId)).map (·.2)).getD .undecided

inductive MintRefusal where
  | ineligible (reason : PlaintextEligibility)
  | notPlaintext
  | notPrivateLiteral
  | stale
  | notConsented

/-- The shared state. The generations have not run out. -/
structure GrantTable where
  grants : List PlaintextGrant
  count : Nat
  identity : Nat
  network : Nat
  consent : Nat
  answers : List Answer
  stranded : List Text
  strandedCount : Nat
  offers : List (GrantScope × PlaintextVerdict)
  revision : Nat

/-- Does a grant admit the origin under the generations of now, for the server that is named? -/
def admits (grants : List PlaintextGrant) (now : GrantScope) (machineId : Option Text) (origin : Origin) : Bool :=
  grants.any (fun g => g.scope = now && g.origin = origin && machineId.all (g.machineId = ·))

def mintCheck (origin : Origin) (evidence : InsecureEvidence) (scope now : GrantScope) : Except MintRefusal Unit :=
  let hostScope := (AddressScope.of origin.host).1
  if origin.scheme ≠ .http then .error .notPlaintext
  else if !hostScope.isPrivateNetwork || hostScope ≠ evidence.plaintextScope then .error .notPrivateLiteral
  else if evidence.plaintextEligibility ≠ .eligible then .error (.ineligible evidence.plaintextEligibility)
  else if scope ≠ now then .error .stale
  else .ok ()

/-- The answers of an account: the persisted ones, with this launch's in their place. -/
def choices (persisted : List PlaintextConsent) (account : Text) (answers : List Answer) : List (Text × PlaintextChoice) :=
  if account.isEmpty then []
  else
    (answers.filter (·.account = account)).foldl
      (fun choices a => choices.filter (·.1 ≠ a.machineId) ++ [(a.machineId, a.choice)])
      ((persisted.filter (·.account = account)).map (fun c => (c.machineId, c.choice)))

namespace GrantTable

def new : GrantTable := ⟨[], 0, 1, 1, 1, [], [], 0, [], 1⟩

def scope (t : GrantTable) : GrantScope := ⟨t.identity, t.network⟩

def hold (t : GrantTable) (grants : List PlaintextGrant) : GrantTable := { t with grants := grants, count := grants.length }

def moved (t : GrantTable) : GrantTable := { t with revision := (t.revision + 1) % 2 ^ 64 }

def granted (t : GrantTable) (machineId : Option Text) (origin : Origin) : Bool :=
  t.count ≠ 0 && admits t.grants t.scope machineId origin

def grantedNow (t : GrantTable) (machineId : Text) (origin : Origin) : Bool :=
  !machineId.isEmpty && !origin.isTls && t.granted (some machineId) origin

def allowedFor (t : GrantTable) (policy : CredentialPolicy) (machineId : Text) (origin : Origin) : Bool :=
  policy.mayCarryCredential origin || t.grantedNow machineId origin

/-- A server holds one grant at most: a new one takes its predecessor's place. -/
def mintConsented (t : GrantTable) (scope : GrantScope) (consent : Nat) (machineId : Text) (origin : Origin)
    (evidence : InsecureEvidence) : Except MintRefusal GrantTable :=
  if machineId.isEmpty then .error .notConsented
  else do
    mintCheck origin evidence scope t.scope
    if consent ≠ t.consent then throw .stale
    return t.hold (t.grants.filter (fun g => g.machineId ≠ machineId && g.scope = scope) ++ [⟨scope, machineId, origin⟩])

end GrantTable

def PlaintextAsk.settle (ask : PlaintextAsk) (t : GrantTable) (machineId : Text) (origin : Origin) (evidence : InsecureEvidence) :
    Except MintRefusal GrantTable :=
  if !(ask.choice machineId).allows then .error .notConsented
  else t.mintConsented ask.scope ask.consent machineId origin evidence

inductive Kept where
  | others (machineId : Text)
  | none
  | installed (roster : List (Text × Origin))

def Kept.keeps : Kept → Text → Origin → Bool
  | .others machineId, machine, _ => machine ≠ machineId
  | .none, _, _ => false
  | .installed roster, machine, origin => roster.any (fun entry => entry.1 = machine && entry.2 = origin)

inductive GrantSection where
  /-- A capture, load by load. -/
  | loadConsent (persisted : List PlaintextConsent) (account : Text)
  | loadIdentity (persisted : List PlaintextConsent) (account : Text)
  | loadNetwork (persisted : List PlaintextConsent) (account : Text)
  | loadAnswers (persisted : List PlaintextConsent) (account : Text)
  /-- The settling of a capture, by its number. -/
  | settle (number : Nat) (ask : PlaintextAsk) (machineId : Text) (origin : Origin) (evidence : InsecureEvidence)
  | withdrawOffer (machineId : Text)
  | offer (scope : GrantScope) (verdict : PlaintextVerdict)
  | putAnswer (answer : Answer)
  | rechoose (machineId : Text) (choice : PlaintextChoice)
  | refuse (machineId : Text)
  | retain (kept : Kept)
  | bumpIdentity
  | bumpNetwork
  | clearAnswers
  | countStranded
  | takeStranded
  | strand
  | clearOffers
  | moved
  /-- `granted_now`, before the lock and under it. -/
  | countGrants (machineId : Text) (origin : Origin)
  | checkGrants (machineId : Text) (origin : Origin)

inductive GrantResult where
  | unit
  | captured (ask : PlaintextAsk)
  | minted (refusal : Option MintRefusal)
  | granted (yes : Bool)

/-- What a section leaves: the state, the capture its worker is at, and what is to be run next. -/
structure Ran where
  table : GrantTable
  ask : PlaintextAsk
  next : List GrantSection
  result : GrantResult

/-- The servers that a change of the network strands. -/
def strandAll (grants : List PlaintextGrant) (stranded : List Text) : List Text :=
  grants.foldl (fun stranded g => if g.machineId ∈ stranded then stranded else stranded ++ [g.machineId]) stranded

def GrantSection.exec (t : GrantTable) (ask : PlaintextAsk) : GrantSection → Ran
  | .loadConsent persisted account => ⟨t, { ask with consent := t.consent }, [.loadIdentity persisted account], .unit⟩
  | .loadIdentity persisted account =>
    ⟨t, { ask with scope := { ask.scope with identity := t.identity } }, [.loadNetwork persisted account], .unit⟩
  | .loadNetwork persisted account =>
    ⟨t, { ask with scope := { ask.scope with network := t.network } }, [.loadAnswers persisted account], .unit⟩
  | .loadAnswers persisted account =>
    let made := { ask with choices := choices persisted account t.answers }
    ⟨t, made, [], .captured made⟩
  | .settle _ own machineId origin evidence => match own.settle t machineId origin evidence with
    | .ok t => ⟨t, ask, [.withdrawOffer machineId, .moved], .minted none⟩
    | .error refusal => ⟨t, ask, [], .minted (some refusal)⟩
  | .withdrawOffer machineId =>
    let offers := t.offers.filter (·.2.machineId ≠ machineId)
    ⟨{ t with offers := offers }, ask, if offers.length ≠ t.offers.length then [.moved] else [], .unit⟩
  | .offer scope verdict =>
    let others := t.offers.filter (·.2.machineId ≠ verdict.machineId)
    ⟨{ t with offers := if verdict.offers && scope = t.scope then others ++ [(scope, verdict)] else others }, ask, [], .unit⟩
  | .putAnswer answer =>
    let others := t.answers.filter (fun a => a.account ≠ answer.account || a.machineId ≠ answer.machineId)
    ⟨{ t with answers := others ++ [answer] }, ask, [], .unit⟩
  | .rechoose machineId choice =>
    let rechosen := t.offers.map (fun o => if o.2.machineId = machineId then (o.1, { o.2 with choice := choice }) else o)
    ⟨{ t with offers := rechosen }, ask, [], .unit⟩
  | .refuse machineId => ⟨{ t.hold (t.grants.filter (·.machineId ≠ machineId)) with consent := t.consent + 1 }, ask, [], .unit⟩
  | .retain kept =>
    let kept := t.grants.filter (fun g => kept.keeps g.machineId g.origin)
    ⟨t.hold kept, ask, if kept.length ≠ t.grants.length then [.moved] else [], .unit⟩
  | .bumpIdentity => ⟨{ t with identity := t.identity + 1 }, ask, [], .unit⟩
  | .bumpNetwork => ⟨{ t with network := t.network + 1 }, ask, [], .unit⟩
  | .clearAnswers => ⟨{ t with answers := [] }, ask, [], .unit⟩
  | .countStranded => ⟨t, ask, if t.strandedCount = 0 then [] else [.takeStranded], .unit⟩
  | .takeStranded => ⟨{ t with stranded := [], strandedCount := 0 }, ask, [], .unit⟩
  | .strand =>
    let stranded := strandAll t.grants t.stranded
    ⟨{ t with stranded := stranded, strandedCount := stranded.length }, ask, [], .unit⟩
  | .clearOffers => ⟨{ t with offers := [] }, ask, [], .unit⟩
  | .moved => ⟨t.moved, ask, [], .unit⟩
  | .countGrants machineId origin =>
    if machineId.isEmpty || origin.isTls || t.count = 0 then ⟨t, ask, [], .granted false⟩
    else ⟨t, ask, [.checkGrants machineId origin], .unit⟩
  | .checkGrants machineId origin => ⟨t, ask, [], .granted (admits t.grants t.scope (some machineId) origin)⟩

end PlxNative.Grant
