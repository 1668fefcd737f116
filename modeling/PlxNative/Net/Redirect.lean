import PlxNative.Lib.Checks
import PlxNative.Net.QueryPair

/-! HTTP redirects on the plaintext media path: a loop above the socket client, which is one
request per open. The credentials of the first request ride a hop only when its origin is the
one the chain set out from. -/
namespace PlxNative.Net
open Text Checks

/-- Why a header line or block was refused. Carries no part of the line. -/
inductive Refusal
  | empty
  | notAHeader
  | badName
  | framing
  | reserved

/-- The headers the transport writes itself. -/
def reserved : List Text :=
  ["host".toList, "user-agent".toList, "content-length".toList, "transfer-encoding".toList]

def isTokenChar (c : Char) : Bool := c.isAlphanum || "!#$%&'*+-.^_`|~".toList.contains c

def nameOf (line : Text) : Except Refusal Text := do
  check (line ≠ []) .empty
  check (¬ line.any (fun c => c == '\x0d' || c == '\n' || c == '\x00')) .framing
  match splitOnce ':' line with
  | none => .error .notAHeader
  | some (name, _) => do
      check (name ≠ [] ∧ name.all isTokenChar) .badName
      pure name

def checkLine (line : Text) : Except Refusal Unit := do
  let name ← nameOf line
  check (¬ reserved.any (eqIgnoreAsciiCase name)) .reserved

def checkBlock : List Text → Except Refusal Unit
  | [] => .ok ()
  | line :: rest => do
      checkLine line
      checkBlock rest

/-- The lines of the plaintext path's block: each one ended, nothing else. -/
def checkWireBlock (block : Text) : Except Refusal (List Text) :=
  if block = [] then .ok [] else
    match stripSuffix ['\x0d', '\n'] block with
    | none => .error .framing
    | some body => do
        checkBlock (crlfLines body)
        pure (crlfLines body)

def namesHeader (lines : List Text) (name : Text) : Bool :=
  lines.any (fun line => (splitOnce ':' line).any (fun cut => eqIgnoreAsciiCase cut.1 name))

example : checkWireBlock "Connection: close\x0d\nX-Plex-Token: t\x0d\n".toList
    = .ok ["Connection: close".toList, "X-Plex-Token: t".toList] := by rfl

example : checkWireBlock "X-A: 1\x0d\n\x0d\nX-B: 2\x0d\n".toList = .error .empty := by rfl

def maxHops : Nat := 5

def isRedirect (status : Int) : Bool := status == 301 || status == 302 || status == 303 || status == 307 || status == 308

inductive HttpOpenError
  | deadline
  | status (code : Int)
  | aborted
  | stopped
  | transport

inductive Opened
  /-- The stream holds a response for this target. -/
  | socket (target : Target)
  /-- Nothing was dialled for it: the socket client cannot speak TLS. -/
  | tls (target : Target)

inductive FollowError
  | «open» (error : HttpOpenError)
  | tooManyHops
  | leftOrigin
  | refused
  | badLocation (status : Int)

/-- One media request to be opened with redirects followed. -/
structure Request where
  origin : Origin
  path : Text
  credentials : Option Text
  rangeFrom : Option Int
  sameOriginOnly : Bool
  credentialGate : Origin → Text → List Text → Bool

/-- A header block as the lines the credential check reads. -/
def headerLines (block : Text) : List Text := (crlfLines block).filter (· ≠ [])

def resolverNode (host : Text) : Text :=
  match stripPrefix ['['] host with
  | some rest => (stripSuffix [']'] rest).getD rest
  | none => host

def hostHeader (host : Text) (port : Int) : Text :=
  let bare := resolverNode host
  if ':' ∈ bare then '[' :: bare ++ "]:".toList ++ (toString port).toList
  else bare ++ ':' :: (toString port).toList

/-- The request as it is sent, for a header block of the caller's own. -/
def requestHead (agent : Text) (target : Target) (extra : Text) : Except Refusal Text := do
  let lines ← checkWireBlock extra
  let accept := if namesHeader lines "accept".toList then [] else "Accept: */*\x0d\n".toList
  pure ("GET ".toList ++ target.path ++ " HTTP/1.1\x0d\nHost: ".toList ++ hostHeader target.origin.host target.origin.port ++
    "\x0d\n".toList ++ agent ++ accept ++ extra ++ "\x0d\n".toList)

/-- What the server made of an open: its outcome, and the `Location` it answered with. -/
structure Answer where
  result : Except HttpOpenError Unit
  location : Option Text

structure Open where
  target : Target
  head : Text

inductive Outcome
  | returned (result : Except FollowError Opened)
  | panicked

structure Run where
  opens : List Open
  outcome : Outcome

namespace Request
variable (req : Request)

def isHome (origin : Origin) : Bool := sameOrigin origin req.origin

/-- The credential block, which is for the original origin only. -/
def blockFor (origin : Origin) : Text := if req.isHome origin then req.credentials.getD [] else []

def withRange (block : Text) : Text :=
  match req.rangeFrom with
  | some start => block ++ "Range: bytes=".toList ++ (toString start).toList ++ "-\x0d\n".toList
  | none => block

/-- The head a hop is opened with, or why nothing is dialled for it. -/
def headFor (agent : Text) (cur : Target) : Except FollowError Text :=
  let block := req.blockFor cur.origin
  if req.credentialGate cur.origin cur.path (headerLines block) then
    let extra := req.withRange block
    -- None of the three can be a C string otherwise.
    if '\x00' ∈ cur.origin.host ∨ '\x00' ∈ cur.path ∨ '\x00' ∈ extra then .error (.open .transport)
    else (requestHead agent cur extra).mapError (fun _ => .open .transport)
  else .error .refused

/-- Where an answer sends the chain, or how it ends there. -/
def next (cur : Target) (answer : Answer) : Except (Except FollowError Opened) Target :=
  match answer.result with
  | .ok () => .error (.ok (.socket cur))
  | .error (.status status) =>
    if isRedirect status then
      match answer.location.bind (resolveLocation cur) with
      | some next => .ok next
      | none => .error (.error (.badLocation status))
    else .error (.error (.open (.status status)))
  | .error error => .error (.error (.open error))

/-- The next target as it is followed, its token attached where the chain is back home. -/
def retarget (token : Option Text) (next : Target) : Option Target :=
  if req.isHome next.origin then
    match token with
    | some pair => some { next with path := withQueryPair next.path pair }
    | none => some next
  else if req.sameOriginOnly then none
  else some next

def follow (agent : Text) (token : Option Text) : Nat → Target → (Nat → Answer) → Run
  | left, cur, answers =>
    if cur.origin.isTls then ⟨[], .returned (.ok (.tls cur))⟩ else
      match req.headFor agent cur with
      | .error error => ⟨[], .returned (.error error)⟩
      | .ok head => match next cur (answers 0) with
        | .error ends => ⟨[⟨cur, head⟩], .returned ends⟩
        | .ok found => match left with
          | 0 => ⟨[⟨cur, head⟩], .returned (.error .tooManyHops)⟩
          | left + 1 => match req.retarget token found with
            | none => ⟨[⟨cur, head⟩], .returned (.error .leftOrigin)⟩
            | some target =>
              let rest := follow agent token left target (fun n => answers (n + 1))
              ⟨⟨cur, head⟩ :: rest.opens, rest.outcome⟩

end Request

/-- Open a request on a stream, following plaintext redirects. -/
def openFollowing (agent : Text) (req : Request) (answers : Nat → Answer) : Run :=
  match tokenPair req.path with
  | none => ⟨[], .panicked⟩
  | some token => req.follow agent token maxHops ⟨req.origin, req.path⟩ answers

end PlxNative.Net
