import PlxNative.Net.RedirectChain

/-! Where a credential goes. A request off the original origin is the one its `Location` spells:
no credential of the first request has a part in it. -/
namespace PlxNative.Net
open List Text Checks

namespace Request

/-- The request with other credentials, in its header block and in its query. -/
def withSecrets (req : Request) (path : Text) (credentials : Option Text) : Request :=
  { req with path := path, credentials := credentials }

/-- A chain that went no further than its own text let it: the token's pair was cut inside of a
character, the gate refused, or the head could not be sent as a request. -/
def StoppedByItself (req : Request) (agent : Text) (run : Run) : Prop :=
  run.outcome = .panicked ∨ ∃ cur error, req.headFor agent cur = .error error ∧ run.outcome = .returned (.error error)

/-- Two runs on the same answers that cannot be told apart away from home. -/
structure Blind (req req' : Request) (agent : Text) (run run' : Run) : Prop where
  opens : ∀ (k : Nat) (o o' : Open), run.opens[k]? = some o → run'.opens[k]? = some o' →
    o.target.origin = o'.target.origin ∧ (req.isHome o.target.origin = false → o = o')
  length : run'.opens.length < run.opens.length → StoppedByItself req' agent run'
  tls : ∀ target, run.outcome = .returned (.ok (.tls target)) → req.isHome target.origin = false →
    run'.outcome = .returned (.ok (.tls target)) ∨ StoppedByItself req' agent run'

/-- Two targets that differ in the query at most, and at home only. -/
structure Abreast (req : Request) (cur cur' : Target) : Prop where
  origin : cur.origin = cur'.origin
  path : pathPart cur.path = pathPart cur'.path
  away : req.isHome cur.origin = false → cur = cur'

variable {req req' : Request} {agent : Text} {token token' : Option Text}
variable {cur : Target}

theorem next_abreast {cur' found : Target} {answer : Answer} (abreast : req.Abreast cur cur') :
    next cur answer = .ok found ↔ next cur' answer = .ok found := by
  rw [next_eq_ok, next_eq_ok, resolveLocation_congr abreast.origin abreast.path]

/-- Two requests of one policy, whatever their secrets. -/
structure Fellow (req req' : Request) : Prop where
  origin : req'.origin = req.origin
  rangeFrom : req'.rangeFrom = req.rangeFrom
  sameOriginOnly : req'.sameOriginOnly = req.sameOriginOnly
  credentialGate : req'.credentialGate = req.credentialGate

theorem Fellow.isHome (fellow : Fellow req req') : req'.isHome = req.isHome := by
  unfold Request.isHome
  rw [fellow.origin]

theorem tokened_pathPart (token : Option Text) (found : Target) : pathPart (tokened token found).path = pathPart found.path := by
  cases token with
  | none => rfl
  | some pair => exact withQueryPair_pathPart _ _

section
variable (fellow : Fellow req req')
include fellow

theorem retarget_abreast (token' : Option Text) {found target : Target} (near : req.retarget token found = some target) :
    ∃ target', req'.retarget token' found = some target' ∧ req.Abreast target target' := by
  by_cases home : req.isHome found.origin = true
  · rw [retarget_home req token home] at near
    obtain rfl := Option.some.inj near
    refine ⟨tokened token' found, retarget_home req' token' (by rwa [fellow.isHome]), rfl, ?_, fun away => ?_⟩
    · rw [tokened_pathPart, tokened_pathPart]
    · exact Bool.noConfusion (away.symm.trans home)
  · refine ⟨target, ?_, rfl, rfl, fun _ => rfl⟩
    unfold retarget at near ⊢
    rw [if_neg home] at near
    rwa [fellow.isHome, fellow.sameOriginOnly, if_neg home]

theorem onward_abreast (token' : Option Text) {left : Nat} {cur cur' target : Target} {answer : Answer}
    (abreast : req.Abreast cur cur') (on : req.onward token left cur answer = .ok target) :
    ∃ target', req'.onward token' left cur' answer = .ok target' ∧ req.Abreast target target' := by
  obtain ⟨some_left, found, located, near⟩ := (onward_eq_ok _ _).mp on
  obtain ⟨target', near', beside⟩ := retarget_abreast fellow token' near
  exact ⟨target', (onward_eq_ok _ _).mpr ⟨some_left, found, (next_abreast abreast).mp located, near'⟩, beside⟩

theorem Fellow.symm : Fellow req' req :=
  ⟨fellow.origin.symm, fellow.rangeFrom.symm, fellow.sameOriginOnly.symm, fellow.credentialGate.symm⟩

theorem headFor_away {cur : Target} (away : req.isHome cur.origin = false) :
    req'.headFor agent cur = req.headFor agent cur := by
  unfold headFor blockFor withRange
  rw [fellow.isHome, fellow.credentialGate, fellow.rangeFrom, away]
  rfl

theorem Chain.blind {left : Nat} {cur cur' : Target} {answers : Nat → Answer} {run run' : Run}
    (chain : req.Chain agent token left cur answers run) (chain' : req'.Chain agent token' left cur' answers run')
    (abreast : req.Abreast cur cur') : Blind req req' agent run run' := by
  induction chain generalizing cur' run' with
  | tls secure =>
    refine ⟨(fun k o o' here => nomatch here), fun less => absurd less (Nat.not_lt_zero _), fun target ends away => ?_⟩
    cases ends
    obtain rfl := abreast.away away
    cases chain' with
    | tls => exact .inl rfl
    | unsent plain => exact Bool.noConfusion (plain.symm.trans secure)
    | over_ plain => exact Bool.noConfusion (plain.symm.trans secure)
    | hop plain => exact Bool.noConfusion (plain.symm.trans secure)
  | unsent =>
    exact ⟨(fun k o o' here => nomatch here), fun less => absurd less (Nat.not_lt_zero _), fun target ends => nomatch ends⟩
  | @over_ left cur answers head ends plain sent over_ =>
    have silent : ∀ target, (Outcome.returned ends) ≠ .returned (.ok (.tls target)) := by
      intro target eq
      injection eq with eq
      rcases onward_eq_error _ _ over_ with socket | ⟨error, failed⟩
      · cases socket.symm.trans eq
      · cases failed.symm.trans eq
    cases chain' with
    | tls secure => exact Bool.noConfusion (plain.symm.trans (abreast.origin ▸ secure))
    | unsent plain' unsent =>
      exact ⟨(fun k o o' _ here => nomatch here), fun _ => .inr ⟨_, _, unsent, rfl⟩, fun target ends => absurd ends (silent target)⟩
    | @over_ _ _ _ head' _ plain' sent' over' =>
      refine ⟨fun k o o' here here' => ?_, fun less => absurd less (Nat.lt_irrefl _), fun target ends => absurd ends (silent target)⟩
      cases k with
      | succ k => cases here
      | zero =>
        cases here
        cases here'
        refine ⟨abreast.origin, fun away => ?_⟩
        obtain rfl := abreast.away away
        rw [headFor_away fellow away, sent] at sent'
        rw [Except.ok.inj sent']
    | hop _ _ on' _ =>
      obtain ⟨target, on, -⟩ := onward_abreast fellow.symm token
        (⟨abreast.origin.symm, abreast.path.symm, fun away => (abreast.away (by rwa [fellow.isHome, ← abreast.origin] at away)).symm⟩) on'
      cases on.symm.trans over_
  | @hop left cur answers head target rest plain sent on _ ih =>
    cases chain' with
    | tls secure => exact Bool.noConfusion (plain.symm.trans (abreast.origin ▸ secure))
    | unsent plain' unsent =>
      exact ⟨(fun k o o' _ here => nomatch here), fun _ => .inr ⟨_, _, unsent, rfl⟩, fun _ _ _ => .inr (.inr ⟨_, _, unsent, rfl⟩)⟩
    | over_ _ _ over' =>
      obtain ⟨target', on', -⟩ := onward_abreast fellow token' abreast on
      cases on'.symm.trans over'
    | @hop _ _ _ head' target' rest' _ sent' on' tail' =>
      obtain ⟨target'', on'', beside⟩ := onward_abreast fellow token' abreast on
      obtain rfl := Except.ok.inj (on'.symm.trans on'')
      have blind := ih tail' beside
      refine ⟨fun k o o' here here' => ?_, fun less => blind.length (Nat.lt_of_succ_lt_succ less), blind.tls⟩
      cases k with
      | succ k => exact blind.opens k o o' here here'
      | zero =>
        cases here
        cases here'
        refine ⟨abreast.origin, fun away => ?_⟩
        obtain rfl := abreast.away away
        rw [headFor_away fellow away, sent] at sent'
        rw [Except.ok.inj sent']

end

theorem headFor_eq_ok {head : Text} (sent : req.headFor agent cur = .ok head) :
    ("GET ".toList ++ cur.path) <+: head ∧ req.blockFor cur.origin <:+: head := by
  unfold headFor at sent
  dsimp only at sent
  split at sent
  case isFalse => cases sent
  case isTrue =>
    split at sent
    case isTrue => cases sent
    case isFalse =>
      cases made : requestHead agent cur (req.withRange (req.blockFor cur.origin)) with
      | error refusal =>
        rw [made] at sent
        cases sent
      | ok whole =>
        rw [made] at sent
        obtain rfl := Except.ok.inj sent
        obtain ⟨lines, -, made⟩ := seq_eq_ok.mp made
        obtain rfl := Except.ok.inj made
        have block : req.blockFor cur.origin <+: req.withRange (req.blockFor cur.origin) := by
          unfold withRange
          split
          · simp only [append_assoc]
            exact prefix_append _ _
          · exact prefix_rfl
        constructor
        case left =>
          simp only [append_assoc]
          exact ⟨_, append_assoc _ _ _⟩
        case right => exact block.isInfix.trans ⟨_, _, rfl⟩

theorem isHome_self : req.isHome req.origin = true := by
  unfold isHome sameOrigin eqIgnoreAsciiCase
  simp

/-- What is true of every target: at home the token is in the query, a request that has to stay
at home does, and no byte that breaks a line is the server's. -/
structure Followed (req : Request) (target : Target) : Prop where
  token : req.isHome target.origin = true → ∀ pair, tokenPair req.path = some (some pair) → hasName tokenName target.path = true
  confined : req.sameOriginOnly = true → req.isHome target.origin = true
  bytes : BreaksFrom req.path target.path

theorem followed_first : Followed req ⟨req.origin, req.path⟩ :=
  ⟨fun _ _ found => hasName_of_tokenPair found, fun _ => isHome_self, fun _ mem _ => mem⟩

theorem withQueryPair_wellShaped {path pair : Text} (shaped : WellShaped path) : WellShaped (withQueryPair path pair) := by
  constructor
  case left =>
    unfold withQueryPair
    split
    · exact shaped.1
    · split <;> exact shaped.1.trans (prefix_append _ _)
  case right =>
    rw [withQueryPair_pathPart]
    exact shaped.2

variable {target : Target}

theorem Moves.wellShaped (moves : req.Moves token cur target) : WellShaped target.path := by
  obtain ⟨location, found, resolved, rfl⟩ := moves.located
  have shaped := (resolveLocation_spec resolved).1
  split
  · cases token with
    | none => exact shaped
    | some pair => exact withQueryPair_wellShaped shaped
  · exact shaped

theorem Moves.bytes (known : tokenPair req.path = some token) (bytes : BreaksFrom req.path cur.path)
    (moves : req.Moves token cur target) : BreaksFrom req.path target.path := by
  obtain ⟨location, found, resolved, rfl⟩ := moves.located
  have clean : BreaksFrom req.path found.path := fun c mem breaks => bytes c ((resolveLocation_spec resolved).2 c mem breaks) breaks
  split
  · cases token with
    | none => exact clean
    | some pair =>
      intro c mem breaks
      rcases mem_withQueryPair mem with old | rfl | rfl | new
      · exact clean c old breaks
      · exact absurd breaks (by decide)
      · exact absurd breaks (by decide)
      · exact subset_of_tokenPair known new
  · exact clean

theorem Moves.followed (known : tokenPair req.path = some token) (followed : Followed req cur)
    (moves : req.Moves token cur target) : Followed req target := by
  refine ⟨fun home pair found => ?_, moves.confined, moves.bytes known followed.bytes⟩
  obtain rfl := Option.some.inj (known.symm.trans found)
  obtain ⟨location, found', resolved, rfl⟩ := moves.located
  split at home
  case isTrue near =>
    rw [if_pos near]
    obtain ⟨_, query, _, part, named⟩ := tokenPair_spec known
    rw [← hasName_congr named]
    exact withQueryPair_named (not_mem_of_mem_splitOn part)
  case isFalse near => exact absurd home near

/-- Everything a followed open owes to its credentials. -/
structure CredentialsStayHome (req : Request) (agent : Text) (answers : Nat → Answer) (run : Run) : Prop where
  bounded : run.opens.length ≤ maxHops + 1
  blind : ∀ path credentials, pathPart path = pathPart req.path →
    Blind req (req.withSecrets path credentials) agent run (openFollowing agent (req.withSecrets path credentials) answers)
  carried : ∀ o ∈ run.opens, req.isHome o.target.origin = true →
    (∀ block, req.credentials = some block → block <:+: o.head) ∧ ("GET ".toList ++ o.target.path) <+: o.head ∧
      ∀ pair, tokenPair req.path = some (some pair) → hasName tokenName o.target.path = true
  confined : req.sameOriginOnly = true → (∀ o ∈ run.opens, req.isHome o.target.origin = true) ∧
    ∀ target, run.endsAt target → req.isHome target.origin = true
  first : ∀ o ∈ run.opens.head?, o.target = ⟨req.origin, req.path⟩
  shaped : ∀ o ∈ run.opens.tail, WellShaped o.target.path ∧ BreaksFrom req.path o.target.path
  handed : ∀ target, run.outcome = .returned (.ok (.tls target)) →
    target = ⟨req.origin, req.path⟩ ∨ (WellShaped target.path ∧ BreaksFrom req.path target.path)

end Request

/-- Every open of a chain is one of at most six. Away from home it is the same whatever the
credentials are, at home it carries them, and no more of a path is free for a server to choose
than a request line can hold. -/
theorem credentials_stay_home (agent : Text) (req : Request) (answers : Nat → Answer) :
    req.CredentialsStayHome agent answers (openFollowing agent req answers) := by
  cases known : tokenPair req.path with
  | none =>
    have run : openFollowing agent req answers = ⟨[], .panicked⟩ := by rw [openFollowing, known]
    rw [run]
    constructor
    case bounded => exact Nat.zero_le _
    case blind => exact fun path credentials _ =>
      ⟨fun k o o' here => (nomatch here), fun less => absurd less (Nat.not_lt_zero _), fun target ends => nomatch ends⟩
    case carried => exact fun o member => absurd member not_mem_nil
    case confined => exact fun _ => ⟨fun o member => absurd member not_mem_nil, fun target ends => by rcases ends with ends | ends <;> cases ends⟩
    case first => exact fun o member => nomatch member
    case shaped => exact fun o member => absurd member not_mem_nil
    case handed => exact fun target ends => nomatch ends
  | some token =>
    have run : openFollowing agent req answers = req.follow agent token maxHops ⟨req.origin, req.path⟩ answers := by
      rw [openFollowing, known]
    have chain := Request.follow_chain req agent token maxHops ⟨req.origin, req.path⟩ answers
    rw [run]
    obtain ⟨followed, ended⟩ := chain.forall (fun holds moves => moves.followed known holds) Request.followed_first
    obtain ⟨shaped, handed⟩ := chain.forall_tail (P := Request.Followed req)
      (Q := fun target => WellShaped target.path ∧ BreaksFrom req.path target.path)
      (fun holds moves => ⟨moves.followed known holds, moves.wellShaped, (moves.followed known holds).bytes⟩) Request.followed_first
    constructor
    case bounded => exact chain.bounded
    case blind =>
      intro path credentials same
      cases known' : tokenPair path with
      | none =>
        have run' : openFollowing agent (req.withSecrets path credentials) answers = ⟨[], .panicked⟩ := by
          rw [openFollowing, Request.withSecrets, known']
        rw [run']
        exact ⟨fun k o o' _ here => (nomatch here), fun _ => .inl rfl, fun _ _ _ => .inr (.inl rfl)⟩
      | some token' =>
        have run' : openFollowing agent (req.withSecrets path credentials) answers =
            (req.withSecrets path credentials).follow agent token' maxHops ⟨req.origin, path⟩ answers := by
          rw [openFollowing, Request.withSecrets, known']
        rw [run']
        have chain' := Request.follow_chain (req.withSecrets path credentials) agent token' maxHops ⟨req.origin, path⟩ answers
        have abreast : req.Abreast ⟨req.origin, req.path⟩ ⟨req.origin, path⟩ :=
          ⟨rfl, same.symm, fun away => Bool.noConfusion (away.symm.trans Request.isHome_self)⟩
        have fellow : Request.Fellow req (req.withSecrets path credentials) := ⟨rfl, rfl, rfl, rfl⟩
        exact chain.blind fellow chain' abreast
    case carried =>
      intro o member home
      obtain ⟨asked, block⟩ := Request.headFor_eq_ok (chain.heads o member)
      refine ⟨fun credentials held => ?_, asked, (followed o member).token home⟩
      rwa [Request.blockFor, if_pos home, held] at block
    case confined => exact fun held => ⟨fun o member => (followed o member).confined held, fun target ends => (ended target ends).confined held⟩
    case first => exact chain.first
    case shaped => exact shaped
    case handed => exact handed

/-- A request of its own path's spelling, and one whose path cuts the search for the token short. -/
def sampleRequest (path : String) : Request :=
  ⟨⟨.http, "127.0.0.1".toList, 80⟩, path.toList, none, none, false, fun _ _ _ => true⟩

def redirectTo (location : String) : Answer := ⟨.error (.status 302), some location.toList⟩

/-- The first target is the caller's, dot segments and all; what a relative reference is joined to
is the caller's too, with its blanks; and a parameter can end the search for the token inside of a
character. -/
theorem spelled_by_the_caller :
    ((openFollowing [] (sampleRequest "/a/../b") fun _ => redirectTo "c").opens.map (fun o => o.target.path)).head? =
        some "/a/../b".toList ∧
      ((openFollowing [] (sampleRequest "/a b/c") fun _ => redirectTo "d").opens.map (fun o => o.target.path))[1]? =
        some "/a b/d".toList ∧
      (openFollowing [] (sampleRequest "/a?aaaaaaaaaaaaé") fun _ => redirectTo "c").outcome = .panicked := by
  refine ⟨by rfl, by rfl, by rfl⟩

end PlxNative.Net
