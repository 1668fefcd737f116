import PlxNative.Hls.Playlist

/-! A playlist cannot move the media worker off its server. A normalised path is one whose
components are proper, and normalising leaves it alone. -/
namespace PlxNative.Hls
open List Text Net Checks Bool Resource

/-- Every percent sign is followed by two digits. -/
def Escapes (s : Text) : Prop :=
  ∀ before after, s = before ++ '%' :: after →
    ∃ high low rest, after = high :: low :: rest ∧ isAsciiHexdigit high ∧ isAsciiHexdigit low

theorem escapesFormed_iff (s : Text) : escapesFormed s = true ↔ Escapes s := by
  fun_induction escapesFormed s with
  | case1 =>
    refine iff_of_true rfl fun before after whole => ?_
    cases before <;> cases whole
  | case2 high low rest ih =>
    rw [and_eq_true, and_eq_true, ih]
    constructor
    · rintro ⟨⟨high_hex, low_hex⟩, later⟩ before after whole
      match before with
      | [] =>
        cases whole
        exact ⟨high, low, rest, rfl, high_hex, low_hex⟩
      | [_] =>
        cases whole
        exact absurd high_hex (by decide)
      | [_, _] =>
        cases whole
        exact absurd low_hex (by decide)
      | _ :: _ :: _ :: before =>
        cases whole
        exact later before after rfl
    · intro formed
      obtain ⟨h, l, r, eq, high_hex, low_hex⟩ := formed [] _ rfl
      cases eq
      refine ⟨⟨high_hex, low_hex⟩, fun before after whole => ?_⟩
      exact formed ('%' :: high :: low :: before) after (by rw [whole]; rfl)
  | case3 rest short =>
    refine iff_of_false Bool.false_ne_true fun formed => ?_
    obtain ⟨h, l, r, eq, -, -⟩ := formed [] _ rfl
    exact short h l r eq
  | case4 c rest _ other ih =>
    rw [ih]
    constructor
    · intro formed before after whole
      cases before with
      | nil =>
        cases whole
        exact absurd rfl other
      | cons _ before =>
        cases whole
        exact formed before after rfl
    · intro formed before after whole
      exact formed (c :: before) after (by rw [whole]; rfl)

theorem escapes_cut {c : Char} (plain : c ≠ '%') (outside : isAsciiHexdigit c = false) (a b : Text) :
    Escapes (a ++ c :: b) ↔ Escapes a ∧ Escapes b := by
  constructor
  · intro formed
    constructor
    · rintro before after rfl
      obtain ⟨high, low, rest, eq, high_hex, low_hex⟩ := formed before (after ++ c :: b) (by simp)
      match after with
      | [] =>
        cases eq
        rw [outside] at high_hex
        cases high_hex
      | [_] =>
        cases eq
        rw [outside] at low_hex
        cases low_hex
      | _ :: _ :: after =>
        cases eq
        exact ⟨high, low, after, rfl, high_hex, low_hex⟩
    · rintro before after rfl
      exact formed (a ++ c :: before) after (by simp)
  · rintro ⟨left, right⟩ before after whole
    rcases append_eq_append_iff.mp whole with ⟨middle, rfl, tail⟩ | ⟨middle, rfl, tail⟩
    · cases middle with
      | nil =>
        cases tail
        exact absurd rfl plain
      | cons _ middle =>
        cases tail
        exact right middle after rfl
    · cases middle with
      | nil =>
        cases tail
        exact absurd rfl plain
      | cons _ middle =>
        cases tail
        obtain ⟨high, low, rest, rfl, high_hex, low_hex⟩ := left before middle rfl
        exact ⟨high, low, rest ++ c :: b, rfl, high_hex, low_hex⟩

def isUriChar (c : Char) : Bool :=
  isAscii c && !isAsciiControl c && !isAsciiWhitespace c && c != '#' && c != '\\'

theorem validateUriText_eq_ok {uri : Text} : validateUriText uri = .ok () ↔ (∀ c ∈ uri, isUriChar c) ∧ Escapes uri := by
  unfold validateUriText
  simp only [then_eq_ok, check_eq_ok, escapesFormed_iff]
  constructor
  · rintro ⟨fragment, backslash, plain, formed⟩
    refine ⟨fun c mem => ?_, formed⟩
    have apart : c ≠ '#' ∧ c ≠ '\\' := ⟨fun eq => fragment (eq ▸ mem), fun eq => backslash (eq ▸ mem)⟩
    simp only [isUriChar, and_eq_true, bne_iff_ne]
    exact ⟨⟨by simpa using plain c mem, apart.1⟩, apart.2⟩
  · rintro ⟨plain, formed⟩
    refine ⟨fun mem => ?_, fun mem => ?_, fun c mem => ?_, formed⟩
    · exact absurd (plain _ mem) (by decide)
    · exact absurd (plain _ mem) (by decide)
    · have := plain c mem
      simp only [isUriChar, and_eq_true] at this
      simpa using this.1.1

/-- A component that no normalisation removes. -/
def Proper (component : Text) : Prop := component ≠ [] ∧ component ≠ ['.'] ∧ component ≠ ['.', '.']

theorem descend_proper {root : Bool} {parts components result : List Text} (followed : descend root parts components = .ok result)
    (proper : ∀ component ∈ components, Proper component) :
    ∀ component ∈ result, Proper component ∧ (component ∈ components ∨ component ∈ parts) := by
  fun_induction descend root parts components with
  | case1 components =>
    cases followed
    exact fun component mem => ⟨proper component mem, .inl mem⟩
  | case2 rest components _ ih =>
    intro component mem
    obtain ⟨good, place⟩ := ih followed proper component mem
    exact ⟨good, place.imp_right (mem_cons_of_mem _)⟩
  | case3 => cases followed
  | case4 rest components _ ih =>
    intro component mem
    obtain ⟨good, place⟩ := ih followed proper component mem
    exact ⟨good, place.imp_right (mem_cons_of_mem _)⟩
  | case5 => cases followed
  | case6 rest components _ _ _ ih =>
    intro component mem
    have kept : ∀ c ∈ components.dropLast, c ∈ components := fun c held => dropLast_subset _ held
    obtain ⟨good, place⟩ := ih followed (fun c held => proper c (kept c held)) component mem
    exact ⟨good, place.imp (kept component) (mem_cons_of_mem _)⟩
  | case7 first rest components named single double ih =>
    intro component mem
    have pushed : ∀ c ∈ components ++ [first], Proper c := by
      exact forall_mem_append.mpr ⟨proper, forall_mem_singleton.mpr ⟨named, single, double⟩⟩
    obtain ⟨good, place⟩ := ih followed pushed component mem
    refine ⟨good, ?_⟩
    rcases place with held | later
    · rcases mem_append.mp held with old | new
      · exact .inl old
      · exact .inr (mem_singleton.mp new ▸ mem_cons_self)
    · exact .inr (mem_cons_of_mem _ later)

theorem descend_of_proper (root : Bool) (components before : List Text) (proper : ∀ component ∈ components, Proper component) :
    descend root components before = .ok (before ++ components) := by
  induction components generalizing before with
  | nil => rw [append_nil]; rfl
  | cons component rest ih =>
    obtain ⟨named, single, double⟩ := proper component mem_cons_self
    unfold descend
    rw [if_neg named, if_neg single, if_neg double, ih _ (fun c held => proper c (mem_cons_of_mem _ held)),
      append_assoc]
    rfl

def queryText : Option Text → Text
  | none => []
  | some query => '?' :: query

theorem withQuery_eq_ok {path out : Text} {query : Option Text} :
    withQuery path query = .ok out ↔ query ≠ some [] ∧ out = path ++ queryText query := by
  cases query with
  | none =>
    constructor
    · intro done
      cases done
      exact ⟨nofun, (append_nil path).symm⟩
    · rintro ⟨-, rfl⟩
      exact congrArg Except.ok (append_nil path).symm
  | some query =>
    unfold withQuery
    rw [then_eq_ok, check_eq_ok]
    constructor
    · rintro ⟨some_query, done⟩
      cases done
      exact ⟨fun eq => some_query (Option.some.inj eq), rfl⟩
    · rintro ⟨some_query, rfl⟩
      exact ⟨fun eq => some_query (congrArg some eq), rfl⟩

theorem pathQuery_eq (path : Text) : path = (pathQuery path).1 ++ queryText (pathQuery path).2 ∧ '?' ∉ (pathQuery path).1 := by
  unfold pathQuery
  cases cut : splitOnce '?' path with
  | none => exact ⟨(append_nil path).symm, splitOnce_eq_none.mp cut⟩
  | some pair => exact splitOnce_eq_some.mp cut

theorem pathQuery_append {path : Text} (free : '?' ∉ path) (query : Option Text) :
    pathQuery (path ++ queryText query) = (path, query) := by
  unfold pathQuery
  cases query with
  | none => rw [queryText, append_nil, splitOnce_eq_none.mpr free]
  | some query => rw [queryText, splitOnce_eq_some.mpr ⟨rfl, free⟩]

structure Settled (path : Text) (components : List Text) (query : Option Text) : Prop where
  whole : path = joined components ++ queryText query
  queried : query ≠ some []
  proper : ∀ component ∈ components, Proper component
  inside : ∀ component ∈ components, '/' ∉ component ∧ '?' ∉ component
  plain : ∀ c ∈ path, isUriChar c
  escapes : Escapes path

theorem forall_joined_query {P : Text → Prop} (empty : P [])
    (cut : ∀ c, c = '/' ∨ c = '?' → ∀ a b, P (a ++ c :: b) ↔ P a ∧ P b) (components : List Text) (query : Option Text) :
    P (joined components ++ queryText query) ↔ (∀ component ∈ components, P component) ∧ ∀ q ∈ query, P q := by
  have path_cut : P (joined components) ↔ ∀ component ∈ components, P component := by
    unfold joined
    split
    case isTrue none_left =>
      rw [List.isEmpty_iff] at none_left
      subst none_left
      exact iff_of_true ((cut '/' (.inl rfl) [] []).mpr ⟨empty, empty⟩) (fun _ mem => absurd mem not_mem_nil)
    case isFalse =>
      rw [← forall_joined empty (cut '/' (.inl rfl)) components]
      exact (cut '/' (.inl rfl) [] _).trans (and_iff_right empty)
  cases query with
  | none =>
    rw [queryText, append_nil, path_cut]
    exact (and_iff_left nofun).symm
  | some query =>
    rw [queryText, cut '?' (.inr rfl), path_cut]
    simp

theorem forall_chars_cut {Q : Char → Prop} {c : Char} (holds : Q c) (a b : Text) :
    (∀ x ∈ a ++ c :: b, Q x) ↔ (∀ x ∈ a, Q x) ∧ ∀ x ∈ b, Q x := by
  rw [forall_mem_append, forall_mem_cons]
  exact and_congr_right' (and_iff_right holds)

theorem isUriChar_cut (c : Char) (delimiter : c = '/' ∨ c = '?') (a b : Text) :
    (∀ x ∈ a ++ c :: b, isUriChar x) ↔ (∀ x ∈ a, isUriChar x) ∧ ∀ x ∈ b, isUriChar x := by
  refine forall_chars_cut ?_ a b
  rcases delimiter with rfl | rfl <;> decide

theorem escapes_delimited (c : Char) (delimiter : c = '/' ∨ c = '?') (a b : Text) :
    Escapes (a ++ c :: b) ↔ Escapes a ∧ Escapes b := by
  rcases delimiter with rfl | rfl
  · exact escapes_cut (by decide) (by decide) a b
  · exact escapes_cut (by decide) (by decide) a b

theorem escapes_nil : Escapes [] := by
  intro before after whole
  cases before <;> cases whole

theorem normalizeAbsolutePath_settled {path out : Text} (normal : normalizeAbsolutePath path = .ok out) :
    ∃ components query, Settled out components query := by
  unfold normalizeAbsolutePath at normal
  rw [then_eq_ok, then_eq_ok, validateUriText_eq_ok, check_eq_ok] at normal
  obtain ⟨⟨plain, formed⟩, ⟨⟨rest, rfl⟩, -⟩, normal⟩ := normal
  obtain ⟨whole, free⟩ := pathQuery_eq ('/' :: rest)
  simp only [singleton_append] at normal plain formed
  generalize (pathQuery ('/' :: rest)).1 = rawPath at normal whole free
  generalize (pathQuery ('/' :: rest)).2 = query at normal whole
  unfold normalizeParts at normal
  rw [then_eq_ok, check_eq_ok] at normal
  obtain ⟨some_path, normal⟩ := normal
  obtain ⟨components, followed, normal⟩ := seq_eq_ok.mp normal
  obtain ⟨queried, rfl⟩ := withQuery_eq_ok.mp normal
  have tail : rest = rawPath.tail ++ queryText query := by
    cases rawPath with
    | nil => exact absurd rfl some_path
    | cons x raw =>
      cases whole
      rfl
  have left := descend_proper followed (fun _ mem => absurd mem not_mem_nil)
  have part : ∀ component ∈ components, component ∈ rawPath.tail.splitOn '/' := fun component mem =>
    (left component mem).2.resolve_left not_mem_nil
  -- What the reference was, its parts are, and so is what they are joined to.
  have carried : ∀ P : Text → Prop, P [] → (∀ c, c = '/' ∨ c = '?' → ∀ a b, P (a ++ c :: b) ↔ P a ∧ P b) → P ('/' :: rest) →
      P (joined components ++ queryText query) := by
    intro P empty cut held
    have rest_held := ((cut '/' (.inl rfl) [] rest).mp held).2
    rw [tail] at rest_held
    rw [forall_joined_query empty cut]
    cases query with
    | none =>
      rw [queryText, append_nil] at rest_held
      exact ⟨fun component mem => (forall_split empty (cut '/' (.inl rfl)) _).mpr rest_held component (part component mem),
        nofun⟩
    | some query =>
      obtain ⟨path_held, query_held⟩ := (cut '?' (.inr rfl) _ _).mp rest_held
      refine ⟨fun component mem =>
        (forall_split empty (cut '/' (.inl rfl)) _).mpr path_held component (part component mem), ?_⟩
      intro q eq
      cases eq
      exact query_held
  refine ⟨components, query, rfl, queried, fun component mem => (left component mem).1, ?_, ?_, ?_⟩
  · intro component mem
    refine ⟨not_mem_of_mem_splitOn (part component mem), ?_⟩
    have free_tail : ∀ x ∈ rawPath.tail, x ≠ '?' := fun x inside eq => free (eq ▸ mem_of_mem_tail inside)
    intro held
    exact (forall_split (P := fun s => ∀ x ∈ s, x ≠ '?') (fun _ mem => absurd mem not_mem_nil)
      (forall_chars_cut (by decide)) _).mpr free_tail component (part component mem) '?' held rfl
  · exact carried (fun s => ∀ c ∈ s, isUriChar c) (fun _ mem => absurd mem not_mem_nil) isUriChar_cut plain
  · exact carried Escapes escapes_nil escapes_delimited formed

/-- A path that holds only what a request to its own server may hold. -/
structure Confined (path : Text) : Prop where
  rooted : ['/'] <+: path ∧ ¬ ['/', '/'] <+: path
  plain : ∀ c ∈ path, isAscii c ∧ ¬ isAsciiWhitespace c ∧ ¬ isAsciiControl c ∧ c ≠ '#' ∧ c ≠ '\\'
  escapes : Escapes path
  components : (pathQuery path).1 = ['/'] ∨
    ∀ component ∈ (pathQuery path).1.tail.splitOn '/', component ≠ [] ∧ component ≠ ['.'] ∧ component ≠ ['.', '.']

variable {path : Text} {components : List Text} {query : Option Text}

theorem joined_eq (components : List Text) : joined components = '/' :: ['/'].intercalate components := by
  cases components <;> rfl

section
variable (settled : Settled path components query)
include settled

theorem Settled.path_free : '?' ∉ joined components := by
  rw [joined_eq]
  intro held
  have part_free : ∀ component ∈ components, ∀ x ∈ component, x ≠ '?' := fun component mem x inside eq =>
    (settled.inside component mem).2 (eq ▸ inside)
  have apart : ('/' : Char) ≠ '?' := by decide
  have free := (forall_joined (P := fun s => ∀ x ∈ s, x ≠ '?') (fun _ mem => absurd mem not_mem_nil)
    (forall_chars_cut apart) components).mpr part_free
  rcases mem_cons.mp held with here | inside
  · cases here
  · exact free '?' inside rfl

theorem Settled.pathQuery_eq : pathQuery path = (joined components, query) := by
  rw [settled.whole]
  exact pathQuery_append settled.path_free query

theorem Settled.split (some_left : components ≠ []) :
    (joined components).tail.splitOn '/' = components := by
  rw [joined_eq]
  exact splitOn_intercalate '/' (fun component mem => (settled.inside component mem).1) some_left

theorem Settled.rooted : ['/'] <+: path ∧ ¬ ['/', '/'] <+: path := by
  rw [settled.whole, joined_eq]
  refine ⟨⟨_, rfl⟩, ?_⟩
  rintro ⟨rest, twice⟩
  have next := List.cons.inj twice |>.2
  cases components with
  | nil =>
    cases query with
    | none => cases next
    | some q => cases next
  | cons component others =>
    obtain ⟨named, -, -⟩ := settled.proper component mem_cons_self
    obtain ⟨x, inner, rfl⟩ := exists_cons_of_ne_nil named
    have first : x = '/' := by
      cases others <;> cases next <;> rfl
    exact (settled.inside _ mem_cons_self).1 (first ▸ mem_cons_self)

theorem Settled.normalized : normalizeAbsolutePath path = .ok path := by
  unfold normalizeAbsolutePath
  rw [then_eq_ok, then_eq_ok, validateUriText_eq_ok, check_eq_ok]
  refine ⟨⟨settled.plain, settled.escapes⟩, settled.rooted, ?_⟩
  rw [settled.pathQuery_eq]
  unfold normalizeParts
  rw [then_eq_ok, check_eq_ok]
  refine ⟨by rw [joined_eq]; exact cons_ne_nil _ _, ?_⟩
  rw [seq_eq_ok]
  refine ⟨components, ?_, withQuery_eq_ok.mpr ⟨settled.queried, settled.whole⟩⟩
  by_cases none_left : components = []
  · rw [none_left]
    rfl
  · rw [settled.split none_left]
    exact descend_of_proper _ components [] settled.proper

theorem Settled.confined : Confined path where
  rooted := settled.rooted
  plain := by
    intro c mem
    have := settled.plain c mem
    simp only [isUriChar, and_eq_true, bne_iff_ne, not_eq_true'] at this
    obtain ⟨⟨⟨⟨ascii, control⟩, white⟩, fragment⟩, backslash⟩ := this
    exact ⟨ascii, by rw [white]; exact Bool.false_ne_true, by rw [control]; exact Bool.false_ne_true, fragment, backslash⟩
  escapes := settled.escapes
  components := by
    rw [settled.pathQuery_eq]
    by_cases none_left : components = []
    · exact .inl (by rw [none_left]; rfl)
    · right
      rw [settled.split none_left]
      exact settled.proper

end

variable {origin : Origin} {r : Resource}

theorem Resource.new_eq_ok (built : Resource.new origin path = .ok r) :
    r.origin = origin ∧ ∃ components query, Settled r.path components query := by
  unfold Resource.new at built
  obtain ⟨normal, normalised, built⟩ := seq_eq_ok.mp built
  cases built
  exact ⟨rfl, normalizeAbsolutePath_settled normalised⟩

/-- A resource on the server of `source` that names a confined path, and is what it would be built as. -/
structure StaysOn (source r : Resource) : Prop where
  origin : r.origin = source.origin
  confined : Confined r.path
  settled : Resource.new r.origin r.path = .ok r

variable {source : Resource}

theorem Resource.new_stays (built : Resource.new origin path = .ok r)
    (eq : origin = source.origin) : StaysOn source r := by
  obtain ⟨here, components, query, settled⟩ := new_eq_ok built
  refine ⟨here.trans eq, settled.confined, ?_⟩
  unfold Resource.new
  rw [settled.normalized]
  rfl

theorem Resource.resolve_stays {reference : Text} (resolved : source.resolve reference = .ok r) :
    StaysOn source r := by
  unfold resolve at resolved
  rw [then_eq_ok, then_eq_ok, then_eq_ok] at resolved
  obtain ⟨-, -, -, resolved⟩ := resolved
  split at resolved
  case isTrue =>
    rw [then_eq_ok] at resolved
    obtain ⟨-, resolved⟩ := resolved
    split at resolved
    · cases resolved
    · rw [then_eq_ok, check_eq_ok] at resolved
      exact new_stays resolved.2 resolved.1
  case isFalse =>
    split at resolved
    · exact new_stays resolved rfl
    · split at resolved
      · cases resolved
      · exact new_stays resolved rfl

theorem masterLine_variant (source : Resource) (state : MasterScan) (lineNo : Nat) (line : Text)
    (stays : ∀ variant ∈ state.variant, StaysOn source variant.resource) :
    Leaves (fun state' => ∀ variant ∈ state'.variant, StaysOn source variant.resource) (masterLine source state lineNo line) := by
  unfold masterLine
  split
  · refine .seq fun _ => ?_
    split
    · exact .pure stays
    · intro state' tagged
      rw [masterTag_variant state lineNo line state' tagged]
      exact stays
  · refine .seq fun bandwidth => .seq fun _ => .after (fun r resolved => resolve_stays resolved) fun r stays' => ?_
    refine .seq fun _ => .pure fun variant eq => ?_
    cases eq
    exact stays'

theorem mediaLine_segments (source : Resource) (state : MediaScan) (lineNo : Nat) (line : Text)
    (stays : ∀ segment ∈ state.segments, StaysOn source segment.resource) :
    Leaves (fun state' => ∀ segment ∈ state'.segments, StaysOn source segment.resource) (mediaLine source state lineNo line) := by
  unfold mediaLine
  split
  · exact .seq fun _ => .pure stays
  split
  · exact .seq fun _ => .pure stays
  split
  · refine .seq fun _ state' tagged => ?_
    rw [(mediaTag_tagged state lineNo line state' tagged).1]
    exact stays
  · unfold mediaUri
    split
    · exact .error
    · split
      · exact .error
      · refine .after (fun r resolved => resolve_stays resolved) fun r stays' => .seq fun _ => .pure ?_
        exact forall_mem_append.mpr ⟨stays, forall_mem_singleton.mpr stays'⟩

def MasterPlaylist.resources (playlist : MasterPlaylist) : List Resource := [playlist.source, playlist.variant.resource]

def MediaPlaylist.resources (playlist : MediaPlaylist) : List Resource :=
  playlist.source :: playlist.segments.map Segment.resource

theorem parseMaster_stays (text : Text) (self : StaysOn source source) :
    Leaves (fun playlist => ∀ r ∈ playlist.resources, StaysOn source r) (parseMaster source text) := by
  refine .seq fun lines => .after (Leaves.foldlM (fun state (numbered : Nat × Text) => masterLine_variant source state numbered.1 numbered.2) (fun _ named => absurd named (Option.not_mem_none _)) _) fun state stays => .seq fun _ => ?_
  split
  · exact .error
  · next variant named =>
      refine .pure fun r mem => ?_
      rcases mem_cons.mp mem with rfl | mem
      · exact self
      · rw [mem_singleton.mp mem]
        exact stays variant named

theorem parseMedia_stays (text : Text) (self : StaysOn source source) :
    Leaves (fun playlist => ∀ r ∈ playlist.resources, StaysOn source r) (parseMedia source text) := by
  refine .seq fun lines => .after (Leaves.foldlM (fun state (numbered : Nat × Text) => mediaLine_segments source state numbered.1 numbered.2)
    (fun _ mem => absurd mem not_mem_nil) _)
    fun state stays => .seq fun _ => .seq fun _ => ?_
  split
  · exact .error
  · exact .error
  · refine .seq fun _ => .pure fun r mem => ?_
    rcases mem_cons.mp mem with rfl | mem
    · exact self
    · obtain ⟨segment, listed, rfl⟩ := mem_map.mp mem
      exact stays segment listed

/-- Whatever a playlist says, what is fetched next is on the server it came from. -/
theorem playlist_stays_on_origin (origin : Origin) (path : Text) (source : Resource) (built : Resource.new origin path = .ok source) :
    (∀ text playlist, parseMaster source text = .ok playlist → ∀ r ∈ playlist.resources, StaysOn source r) ∧
      (∀ text playlist, parseMedia source text = .ok playlist → ∀ r ∈ playlist.resources, StaysOn source r) ∧
      ∀ reference r, source.resolve reference = .ok r → StaysOn source r := by
  have self : StaysOn source source := Resource.new_stays built (new_eq_ok built).1.symm
  exact ⟨fun text => parseMaster_stays text self, fun text => parseMedia_stays text self,
    fun reference r resolved => resolve_stays resolved⟩

theorem playlist_stays_on_origin_start :
    ∃ source, Resource.new ⟨.http, "192.0.2.10".toList, 32400⟩ "/video/../start.m3u8?a=b".toList = .ok source ∧
      source.resolve "session/base/index.m3u8".toList =
        .ok ⟨source.origin, "/session/base/index.m3u8".toList⟩ ∧
      StaysOn source ⟨source.origin, "/session/base/index.m3u8".toList⟩ := by
  have built : Resource.new ⟨.http, "192.0.2.10".toList, 32400⟩ "/video/../start.m3u8?a=b".toList =
      .ok ⟨⟨.http, "192.0.2.10".toList, 32400⟩, "/start.m3u8?a=b".toList⟩ := by decide +kernel
  have resolved : resolve ⟨⟨.http, "192.0.2.10".toList, 32400⟩, "/start.m3u8?a=b".toList⟩
      "session/base/index.m3u8".toList = .ok ⟨⟨.http, "192.0.2.10".toList, 32400⟩, "/session/base/index.m3u8".toList⟩ := by
    decide +kernel
  exact ⟨_, built, resolved, (playlist_stays_on_origin _ _ _ built).2.2 _ _ resolved⟩

end PlxNative.Hls
