import PlxNative.Net.Origin

/-! What a resolved `Location` looks like: an absolute path without dot segments, made of the
reference and of the path part it was relative to, and of nothing else. -/
namespace PlxNative.Net
open List Text

/-- One request target: an origin and an absolute path with its query. -/
structure Target where
  origin : Origin
  path : Text

/-- Same scheme, host and port, the host in any case. -/
def sameOrigin (a b : Origin) : Bool :=
  a.scheme == b.scheme && a.port == b.port && eqIgnoreAsciiCase a.host b.host

/-- What would break a request line: white space and the control bytes. -/
def breaksLine (c : Char) : Bool := c.toNat ≤ 0x20 || c.toNat == 0x7f

def pathPart (path : Text) : Text := path.takeWhile (· ≠ '?')

/-- The segments that are left when the dot segments have been followed. -/
def keepSegments : List Text → List Text → List Text
  | [], out => out
  | s :: rest, out =>
    if s = ['.'] then keepSegments rest (if rest.isEmpty then out ++ [[]] else out)
    else if s = ['.', '.'] then keepSegments rest (if rest.isEmpty then out.dropLast ++ [[]] else out.dropLast)
    else keepSegments rest (out ++ [s])

def cutQuery (path : Text) : Text × Option Text :=
  match splitOnce '?' path with
  | some (path, query) => (path, some query)
  | none => (path, none)

/-- Remove the dot segments from the path part; the query is untouched. -/
def normalize (pathAndQuery : Text) : Text :=
  let (path, query) := cutQuery pathAndQuery
  let p := '/' :: ['/'].intercalate (keepSegments (path.splitOn '/').tail [])
  match query with
  | some query => p ++ '?' :: query
  | none => p

def authorityHost (auth : Text) : Option (Text × Option Text) :=
  match stripPrefix ['['] auth with
  | some rest => match splitOnce ']' rest with
    | none => none
    | some (host, after) => match stripPrefix [':'] after with
      | some port => some (host, some port)
      | none => if after.isEmpty then some (host, none) else none
  | none => match splitOnce ':' auth with
    | some (host, port) => some (host, some port)
    | none => some (auth, none)

def authorityPort (scheme : Scheme) (port : Option Text) : Option Int :=
  match port with
  | none | some [] => some (if scheme.isTls then 443 else 80)
  | some digits => ((Usize.parse 65536 digits).filter (0 < ·)).map Int.ofNat

/-- A host and a port, a bracketed literal among the hosts, user information refused. -/
def parseAuthority (scheme : Scheme) (auth : Text) : Option Origin :=
  if '@' ∈ auth then none else
    match authorityHost auth with
    | none => none
    | some (host, port) => if host.isEmpty then none else (authorityPort scheme port).map (Origin.new scheme host)

/-- The scheme a reference names, or borrows after two slashes, and what follows it. -/
def referenceScheme (base : Scheme) (loc : Text) : Option Scheme × Text :=
  let lower := ((firstBytes 8 loc).getD loc).map Char.toLower
  if "https://".toList.isPrefixOf lower then (some .https, loc.drop 8)
  else if "http://".toList.isPrefixOf lower then (some .http, loc.drop 7)
  else match stripPrefix ['/', '/'] loc with
    | some rest => (some base, rest)
    | none => (none, loc)

def beforeDelimiter (s : Text) : Text := s.takeWhile (fun c => c != '/' && c != '?')

def fromDelimiter (s : Text) : Text := s.dropWhile (fun c => c != '/' && c != '?')

def rooted (tail : Text) : Text := if ['/'].isPrefixOf tail then tail else '/' :: tail

/-- A reference with no scheme of its own, joined to the path it is relative to. -/
def joinReference (basePath loc : Text) : Text :=
  if ['/'].isPrefixOf loc then loc
  else if ['?'].isPrefixOf loc then pathPart basePath ++ loc
  else (throughLast '/' (pathPart basePath)).getD ['/'] ++ loc

def isBlank (c : Char) : Bool := c == ' ' || c == '\t'

def trimBlanks (s : Text) : Text := ((s.dropWhile isBlank).reverse.dropWhile isBlank).reverse

/-- Resolve a `Location`. Nothing for what this client cannot request. -/
def resolveLocation (base : Target) (location : Text) : Option Target :=
  let loc := trimBlanks location
  if loc.isEmpty || loc.any breaksLine then none else
    let loc := loc.takeWhile (· ≠ '#')
    if loc.isEmpty then none else
      match referenceScheme base.origin.scheme loc with
      | (some scheme, rest) =>
        (parseAuthority scheme (beforeDelimiter rest)).map (fun origin =>
          ⟨origin, normalize (rooted (fromDelimiter rest))⟩)
      | (none, loc) =>
        -- A colon before the first delimiter is another scheme.
        if ':' ∈ beforeDelimiter loc then none
        else some ⟨base.origin, normalize (joinReference base.path loc)⟩

/-- The token's pair among the pairs of a query. Comparing a pair cuts it in front of its
fourteenth byte, and that the cut falls between characters is not looked at. -/
def findToken : List Text → Option (Option Text)
  | [] => some none
  | p :: rest =>
    if 13 < byteLen p then
      match firstBytes 13 p with
      | none => none
      | some name => if eqIgnoreAsciiCase name "X-Plex-Token=".toList then some (some p) else findToken rest
    else findToken rest

/-- The token's pair in a path's query, if it has one; nothing at all where the search panics. -/
def tokenPair (path : Text) : Option (Option Text) :=
  match splitOnce '?' path with
  | none => some none
  | some (_, query) => findToken (query.splitOn '&')

def nameOfPair (pair : Text) : Text := pair.takeWhile (· ≠ '=')

/-- A query holds a parameter of this name. -/
def hasName (name : Text) (path : Text) : Bool :=
  (splitOnce '?' path).any (fun cut => (cut.2.splitOn '&').any (fun p => eqIgnoreAsciiCase (nameOfPair p) name))

/-- The pair appended to a path's query, unless a parameter of that name is already there. -/
def withQueryPair (path pair : Text) : Text :=
  if hasName (nameOfPair pair) path then path
  else if '?' ∈ path then path ++ '&' :: pair
  else path ++ '?' :: pair

/-- A path that can be asked for: absolute, and with no dot segment before its query. -/
def WellShaped (path : Text) : Prop :=
  ['/'] <+: path ∧ ∀ s ∈ (pathPart path).splitOn '/', s ≠ ['.'] ∧ s ≠ ['.', '.']

/-- A text holds no byte that breaks a line but those of another text. -/
def BreaksFrom (source path : Text) : Prop := ∀ c ∈ path, breaksLine c = true → c ∈ source

variable {path : Text}

theorem pathPart_subset : pathPart path ⊆ path := fun _ mem => (takeWhile_sublist _).subset mem

theorem pathPart_append {a b : Text} (free : '?' ∉ a) : pathPart (a ++ b) = a ++ pathPart b :=
  takeWhile_append_of_pos (fun _ mem => decide_eq_true fun eq => free (eq ▸ mem))

theorem pathPart_of_free {a : Text} (free : '?' ∉ a) : pathPart a = a := by
  have whole := pathPart_append (b := []) free
  rwa [append_nil, pathPart, pathPart, takeWhile_nil, append_nil] at whole

theorem pathPart_cut {a query : Text} (free : '?' ∉ a) : pathPart (a ++ '?' :: query) = a := by
  rw [pathPart_append free]
  exact append_nil a

variable {s : Text} {query : Option Text}

theorem cutQuery_spec (cut : cutQuery s = (path, query)) :
    '?' ∉ path ∧ s = path ++ (query.elim [] ('?' :: ·)) := by
  unfold cutQuery at cut
  split at cut
  case h_1 head tail found =>
    cases cut
    exact (splitOnce_eq_some.mp found).symm
  case h_2 found =>
    cases cut
    exact ⟨splitOnce_eq_none.mp found, (append_nil _).symm⟩

theorem mem_keepSegments {rest out : List Text} (mem : s ∈ keepSegments rest out) :
    s ∈ out ∨ s = [] ∨ (s ∈ rest ∧ s ≠ ['.'] ∧ s ≠ ['.', '.']) := by
  induction rest generalizing out with
  | nil => exact .inl mem
  | cons x rest ih =>
    have closed : ∀ kept : List Text, s ∈ (if rest.isEmpty then kept ++ [[]] else kept) → s ∈ kept ∨ s = [] := by
      intro kept inside
      split at inside
      · exact (mem_append.mp inside).imp id mem_singleton.mp
      · exact .inl inside
    unfold keepSegments at mem
    split at mem
    case isTrue dot =>
      rcases ih mem with old | empty | new
      · rcases closed out old with old | empty
        · exact .inl old
        · exact .inr (.inl empty)
      · exact .inr (.inl empty)
      · exact .inr (.inr ⟨mem_cons_of_mem _ new.1, new.2⟩)
    case isFalse single =>
      split at mem
      case isTrue dots =>
        rcases ih mem with old | empty | new
        · rcases closed out.dropLast old with old | empty
          · exact .inl ((dropLast_sublist out).subset old)
          · exact .inr (.inl empty)
        · exact .inr (.inl empty)
        · exact .inr (.inr ⟨mem_cons_of_mem _ new.1, new.2⟩)
      case isFalse double =>
        rcases ih mem with old | empty | new
        · rcases mem_append.mp old with old | here
          · exact .inl old
          · rw [mem_singleton] at here
            exact .inr (.inr ⟨here ▸ mem_cons_self, here ▸ single, here ▸ double⟩)
        · exact .inr (.inl empty)
        · exact .inr (.inr ⟨mem_cons_of_mem _ new.1, new.2⟩)

/-- What is left of the segments of an absolute path. -/
def kept (path : Text) : List Text := keepSegments (path.splitOn '/').tail []

theorem mem_kept (mem : s ∈ kept path) : s = [] ∨ (s ∈ path.splitOn '/' ∧ s ≠ ['.'] ∧ s ≠ ['.', '.']) := by
  rcases mem_keepSegments mem with old | empty | new
  · exact absurd old not_mem_nil
  · exact .inl empty
  · exact .inr ⟨mem_of_mem_tail new.1, new.2⟩

variable {c : Char}

theorem mem_kept_path (mem : c ∈ '/' :: ['/'].intercalate (kept path)) : c = '/' ∨ c ∈ path := by
  rcases mem_cons.mp mem with slash | inside
  · exact .inl slash
  · rcases mem_joined inside with slash | ⟨s, known, inside⟩
    · exact .inl slash
    · rcases mem_kept known with rfl | ⟨known, -⟩
      · exact absurd inside not_mem_nil
      · exact .inr (mem_of_mem_splitOn known inside)

theorem normalize_eq (cut : cutQuery s = (path, query)) :
    normalize s = '/' :: ['/'].intercalate (kept path) ++ query.elim [] ('?' :: ·) := by
  unfold normalize
  rw [cut]
  cases query with
  | none => exact (append_nil _).symm
  | some query => rfl

theorem segments_of_kept (mem : s ∈ ('/' :: ['/'].intercalate (kept path)).splitOn '/') :
    s ≠ ['.'] ∧ s ≠ ['.', '.'] := by
  rw [splitOn_cons_eq_if_modifyHead, if_pos (beq_self_eq_true _)] at mem
  rcases mem_cons.mp mem with rfl | mem
  · exact ⟨by decide, by decide⟩
  · by_cases none : kept path = []
    · rw [none, intercalate_nil, splitOn_nil, mem_singleton] at mem
      subst mem
      exact ⟨by decide, by decide⟩
    · have free : ∀ part ∈ kept path, '/' ∉ part := by
        intro part known
        rcases mem_kept known with rfl | ⟨known, -⟩
        · exact not_mem_nil
        · exact not_mem_of_mem_splitOn known
      rw [splitOn_intercalate '/' free none] at mem
      rcases mem_kept mem with rfl | ⟨-, apart⟩
      · exact ⟨by decide, by decide⟩
      · exact apart

theorem normalize_wellShaped (s : Text) : WellShaped (normalize s) := by
  obtain ⟨⟨path, query⟩, cut⟩ : ∃ halves, cutQuery s = halves := ⟨_, rfl⟩
  have free := (cutQuery_spec cut).1
  have noQuery : '?' ∉ '/' :: ['/'].intercalate (kept path) := by
    intro mem
    rcases mem_kept_path mem with slash | inside
    · exact absurd slash (by decide)
    · exact free inside
  have part : pathPart (normalize s) = '/' :: ['/'].intercalate (kept path) := by
    rw [normalize_eq cut]
    cases query with
    | none => exact (congrArg pathPart (append_nil _)).trans (pathPart_of_free noQuery)
    | some query => exact pathPart_cut noQuery
  constructor
  case left => exact ⟨_, (normalize_eq cut).symm⟩
  case right =>
    rw [part]
    exact fun s mem => segments_of_kept mem

theorem mem_normalize (mem : c ∈ normalize s) : c = '/' ∨ c ∈ s := by
  obtain ⟨⟨path, query⟩, cut⟩ : ∃ halves, cutQuery s = halves := ⟨_, rfl⟩
  rw [normalize_eq cut] at mem
  rw [(cutQuery_spec cut).2]
  rcases mem_append.mp mem with front | back
  · exact (mem_kept_path front).imp id (mem_append_left _)
  · exact .inr (mem_append_right _ back)

theorem mem_joinReference {basePath loc : Text} (mem : c ∈ joinReference basePath loc) :
    c = '/' ∨ c ∈ basePath ∨ c ∈ loc := by
  unfold joinReference at mem
  split at mem
  case isTrue => exact .inr (.inr mem)
  case isFalse =>
    split at mem
    case isTrue => exact .inr ((mem_append.mp mem).imp (fun inside => pathPart_subset inside) id)
    case isFalse =>
      rcases mem_append.mp mem with directory | inside
      · cases found : throughLast '/' (pathPart basePath) with
        | none =>
          rw [found] at directory
          exact .inl (mem_singleton.mp directory)
        | some directory' =>
          rw [found] at directory
          exact .inr (.inl (pathPart_subset ((throughLast_front found).subset directory)))
      · exact .inr (.inr inside)

theorem joinReference_congr {a b : Text} (eq : pathPart a = pathPart b) : joinReference a = joinReference b := by
  unfold joinReference
  rw [eq]

theorem resolveLocation_congr {a b : Target} (origin : a.origin = b.origin) (path : pathPart a.path = pathPart b.path) :
    resolveLocation a = resolveLocation b := by
  unfold resolveLocation
  rw [origin, joinReference_congr path]

theorem referenceScheme_subset (base : Scheme) (loc : Text) : (referenceScheme base loc).2 ⊆ loc := by
  unfold referenceScheme
  dsimp only
  split
  · exact drop_subset 8 loc
  · split
    · exact drop_subset 7 loc
    · split
      case h_1 rest found =>
        unfold stripPrefix at found
        split at found <;> cases found
        exact drop_subset _ loc
      case h_2 => exact fun _ mem => mem

theorem mem_rooted {tail : Text} (mem : c ∈ rooted tail) : c = '/' ∨ c ∈ tail := by
  unfold rooted at mem
  split at mem
  · exact .inr mem
  · exact mem_cons.mp mem

theorem resolveLocation_spec {base next : Target} {location : Text} (found : resolveLocation base location = some next) :
    WellShaped next.path ∧ BreaksFrom base.path next.path := by
  unfold resolveLocation at found
  dsimp only at found
  split at found
  case isTrue => cases found
  case isFalse usable =>
    split at found
    case isTrue => cases found
    case isFalse =>
      have clean : ∀ c ∈ (trimBlanks location).takeWhile (· ≠ '#'), breaksLine c = false := by
        intro c mem
        rw [Bool.or_eq_true, not_or, any_eq_true] at usable
        exact Bool.eq_false_iff.mpr fun breaks => usable.2 ⟨c, (takeWhile_sublist _).subset mem, breaks⟩
      split at found
      case h_1 scheme rest named =>
        obtain ⟨origin, -, rfl⟩ := Option.map_eq_some_iff.mp found
        constructor
        case left => exact normalize_wellShaped _
        case right =>
          intro c mem breaks
          have inside : rest ⊆ (trimBlanks location).takeWhile (· ≠ '#') := by
            have all := referenceScheme_subset base.origin.scheme ((trimBlanks location).takeWhile (· ≠ '#'))
            rwa [named] at all
          rcases mem_normalize mem with slash | mem
          · exact absurd breaks (slash ▸ by decide)
          · rcases mem_rooted mem with slash | mem
            · exact absurd breaks (slash ▸ by decide)
            · have calm := clean c (inside ((dropWhile_sublist _).subset mem))
              exact Bool.noConfusion (calm.symm.trans breaks)
      case h_2 loc named =>
        split at found
        case isTrue => cases found
        case isFalse =>
          cases found
          constructor
          case left => exact normalize_wellShaped _
          case right =>
            intro c mem breaks
            have inside : loc ⊆ (trimBlanks location).takeWhile (· ≠ '#') := by
              have all := referenceScheme_subset base.origin.scheme ((trimBlanks location).takeWhile (· ≠ '#'))
              rwa [named] at all
            rcases mem_normalize mem with slash | mem
            · exact absurd breaks (slash ▸ by decide)
            · rcases mem_joinReference mem with slash | known | new
              · exact absurd breaks (slash ▸ by decide)
              · exact known
              · exact Bool.noConfusion ((clean c (inside new)).symm.trans breaks)

end PlxNative.Net
