import PlxNative.Hls.Confinement

/-! The credential of a route: taken from its master once, put on each request and taken out of
what a request comes back from, so that no resource holds it. -/
namespace PlxNative.Hls
open List Text Net Checks Resource

def tokenName : Text := "X-Plex-Token".toList

def isTokenPair (pair : Text) : Bool :=
  match splitOnce '=' pair with
  | none => false
  | some (name, _) => eqIgnoreAsciiCase name tokenName

inductive AuthError where
  | missingCredential
  | multipleCredentials
  | credentialChanged
deriving DecidableEq

structure InheritedAuth where
  tokenPair : Text
deriving DecidableEq

def queryPairs (path : Text) : List Text :=
  match (pathQuery path).2 with
  | none => []
  | some query => query.splitOn '&'

namespace InheritedAuth

def capture (master : Resource) : Except AuthError InheritedAuth :=
  match (pathQuery master.path).2 with
  | none => .error .missingCredential
  | some query => match (query.splitOn '&').filter isTokenPair with
    | [] => .error .missingCredential
    | pair :: more =>
      if byteLen pair ≤ byteLen "X-Plex-Token=".toList then .error .missingCredential
      else if more ≠ [] then .error .multipleCredentials
      else .ok ⟨pair⟩

def appended (auth : InheritedAuth) (path : Text) : Text :=
  path ++ (if '?' ∈ path then '&' else '?') :: auth.tokenPair

/-- A playlist may repeat the credential, but may not replace it. -/
def requestPath (auth : InheritedAuth) (resource : Resource) : Except AuthError Text :=
  match (pathQuery resource.path).2 with
  | none => .ok (auth.appended resource.path)
  | some query => match (query.splitOn '&').filter isTokenPair with
    | [] => .ok (auth.appended resource.path)
    | pair :: more =>
      if pair ≠ auth.tokenPair then .error .credentialChanged
      else if more ≠ [] then .error .multipleCredentials
      else .ok resource.path

end InheritedAuth

/-- A request path without its token pairs. -/
def strippedPath (requestPath : Text) : Text :=
  match pathQuery requestPath with
  | (path, none) => path
  | (path, some query) =>
    let kept := (query.splitOn '&').filter (!isTokenPair ·)
    if kept.isEmpty then path else path ++ '?' :: ['&'].intercalate kept

def Resource.fromRequestPath (origin : Origin) (requestPath : Text) : Except Error Resource :=
  new origin (strippedPath requestPath)

section
variable {path pair : Text}

theorem queryPairs_append {path : Text} (free : '?' ∉ path) (query : Option Text) :
    queryPairs (path ++ queryText query) = match query with | none => [] | some query => query.splitOn '&' := by
  unfold queryPairs
  rw [pathQuery_append free]

theorem queryPairs_apart (mem : pair ∈ queryPairs path) : '&' ∉ pair := by
  unfold queryPairs at mem
  split at mem
  · cases mem
  · exact not_mem_of_mem_splitOn mem

theorem appended_spec (auth : InheritedAuth) (whole : '&' ∉ auth.tokenPair) (path : Text) :
    queryPairs (auth.appended path) = queryPairs path ++ [auth.tokenPair] ∧ (pathQuery (auth.appended path)).1 = (pathQuery path).1 := by
  obtain ⟨cut, free⟩ := pathQuery_eq path
  unfold InheritedAuth.appended queryPairs
  cases shape : (pathQuery path).2 with
  | none =>
    rw [shape, queryText, append_nil] at cut
    rw [← cut] at free
    rw [if_neg free]
    have both : pathQuery (path ++ '?' :: auth.tokenPair) = (path, some auth.tokenPair) := pathQuery_append free (some auth.tokenPair)
    rw [both]
    simp only
    rw [splitOn_eq_singleton whole]
    exact ⟨rfl, cut⟩
  | some query =>
    rw [shape] at cut
    have marked : '?' ∈ path := by
      rw [cut]
      exact mem_append_right _ mem_cons_self
    rw [if_pos marked]
    have both : pathQuery (path ++ '&' :: auth.tokenPair) = ((pathQuery path).1, some (query ++ '&' :: auth.tokenPair)) := by
      have longer : path ++ '&' :: auth.tokenPair = (pathQuery path).1 ++ queryText (some (query ++ '&' :: auth.tokenPair)) := by
        conv_lhs => rw [cut]
        rw [queryText, queryText, append_assoc]
        rfl
      rw [longer]
      exact pathQuery_append free _
    rw [both]
    simp only
    rw [splitOn_append_cons_self, splitOn_eq_singleton whole]
    exact ⟨rfl, trivial⟩

theorem strippedPath_eq (path : Text) : strippedPath path = (pathQuery path).1 ++
    queryText (if (queryPairs path).filter (!isTokenPair ·) = [] then none
      else some (['&'].intercalate ((queryPairs path).filter (!isTokenPair ·)))) := by
  unfold strippedPath queryPairs
  cases pathQuery path with
  | mk head query =>
    cases query with
    | none => exact (append_nil head).symm
    | some query =>
      simp only
      by_cases empty : (query.splitOn '&').filter (!isTokenPair ·) = []
      · rw [if_pos empty, if_pos (List.isEmpty_iff.mpr empty)]
        exact (append_nil head).symm
      · rw [if_neg empty, if_neg (fun none_ => empty (List.isEmpty_iff.mp none_))]
        rfl

theorem strippedPath_pairs (path : Text) : queryPairs (strippedPath path) = (queryPairs path).filter (!isTokenPair ·) := by
  rw [strippedPath_eq, queryPairs_append (pathQuery_eq path).2]
  by_cases empty : (queryPairs path).filter (!isTokenPair ·) = []
  · rw [if_pos empty, empty]
  · rw [if_neg empty]
    exact splitOn_intercalate '&' (fun pair mem => queryPairs_apart (mem_filter.mp mem).1) empty

end
section
variable {auth : InheritedAuth}

theorem capture_spec {master : Resource} (captured : InheritedAuth.capture master = .ok auth) :
    isTokenPair auth.tokenPair = true ∧ '&' ∉ auth.tokenPair := by
  unfold InheritedAuth.capture at captured
  cases shape : (pathQuery master.path).2 with
  | none =>
    rw [shape] at captured
    cases captured
  | some query =>
    rw [shape] at captured
    simp only at captured
    cases found : (query.splitOn '&').filter isTokenPair with
    | nil =>
      rw [found] at captured
      cases captured
    | cons pair more =>
      have mem : pair ∈ (query.splitOn '&').filter isTokenPair := found ▸ mem_cons_self
      rw [found] at captured
      simp only at captured
      split at captured
      · cases captured
      · split at captured
        · cases captured
        · cases captured
          exact ⟨(mem_filter.mp mem).2, not_mem_of_mem_splitOn (mem_filter.mp mem).1⟩

theorem requestPath_eq (auth : InheritedAuth) (r : Resource) :
    auth.requestPath r = match (queryPairs r.path).filter isTokenPair with
      | [] => .ok (auth.appended r.path)
      | pair :: more =>
        if pair ≠ auth.tokenPair then .error .credentialChanged
        else if more ≠ [] then .error .multipleCredentials
        else .ok r.path := by
  unfold InheritedAuth.requestPath queryPairs
  cases (pathQuery r.path).2 <;> rfl

/-- The token pairs of a query that stop a request. -/
def Clashes (auth : InheritedAuth) (tokens : List Text) : Prop :=
  (∃ pair rest, tokens = pair :: rest ∧ pair ≠ auth.tokenPair) ∨ 1 < tokens.length

theorem requestPath_error (auth : InheritedAuth) (r : Resource) :
    (∃ e, auth.requestPath r = .error e) ↔ Clashes auth ((queryPairs r.path).filter isTokenPair) := by
  rw [requestPath_eq]
  unfold Clashes
  cases (queryPairs r.path).filter isTokenPair with
  | nil => simp
  | cons pair more =>
    by_cases other : pair = auth.tokenPair
    · cases more with
      | nil => simp [other]
      | cons next more => simp [other]
    · simp [other]

theorem requestPath_ok (token : isTokenPair auth.tokenPair = true) (whole : '&' ∉ auth.tokenPair) {r : Resource} {path : Text}
    (made : auth.requestPath r = .ok path) :
    (queryPairs path).filter isTokenPair = [auth.tokenPair] ∧
      (queryPairs path).filter (!isTokenPair ·) = (queryPairs r.path).filter (!isTokenPair ·) ∧ (pathQuery path).1 = (pathQuery r.path).1 := by
  rw [requestPath_eq] at made
  cases found : (queryPairs r.path).filter isTokenPair with
  | nil =>
    rw [found] at made
    cases made
    obtain ⟨pairs, head⟩ := appended_spec auth whole r.path
    rw [pairs, filter_append, filter_append, found, head]
    simp [token]
  | cons pair more =>
    rw [found] at made
    simp only at made
    split at made
    · cases made
    · rename_i eq
      split at made
      · cases made
      · rename_i alone
        cases made
        rw [found, not_not.mp eq, not_not.mp alone]
        exact ⟨rfl, rfl, rfl⟩

end
section
variable {path out : Text}

theorem normalizeAbsolutePath_query (normal : normalizeAbsolutePath path = .ok out) : (pathQuery out).2 = (pathQuery path).2 := by
  unfold normalizeAbsolutePath at normal
  rw [then_eq_ok, then_eq_ok] at normal
  obtain ⟨-, -, normal⟩ := normal
  obtain ⟨-, free⟩ := pathQuery_eq path
  unfold normalizeParts at normal
  rw [then_eq_ok] at normal
  obtain ⟨-, normal⟩ := normal
  obtain ⟨components, followed, normal⟩ := seq_eq_ok.mp normal
  obtain ⟨-, rfl⟩ := withQuery_eq_ok.mp normal
  have unmarked : '?' ∉ joined components := by
    rw [joined_eq]
    intro held
    rcases mem_cons.mp held with here | inside
    · cases here
    · rcases mem_joined inside with here | ⟨part, known, deeper⟩
      · cases here
      · have from_ := (descend_proper followed (fun _ mem => absurd mem not_mem_nil) part known).2.resolve_left not_mem_nil
        exact free (mem_of_mem_tail (mem_of_mem_splitOn from_ deeper))
  rw [pathQuery_append unmarked]

theorem fromRequestPath_bare {origin : Origin} {request : Text} {r : Resource} (built : fromRequestPath origin request = .ok r) :
    (queryPairs r.path).filter isTokenPair = [] := by
  obtain ⟨normal, normalised, built⟩ := seq_eq_ok.mp built
  cases built
  have eq : queryPairs normal = queryPairs (strippedPath request) := by
    unfold queryPairs
    rw [normalizeAbsolutePath_query normalised]
  rw [eq, strippedPath_pairs, filter_filter]
  apply filter_eq_nil_iff.mpr
  simp

theorem fromRequestPath_requestPath {auth : InheritedAuth} (token : isTokenPair auth.tokenPair = true) (whole : '&' ∉ auth.tokenPair)
    {origin : Origin} {r : Resource} (built : new origin path = .ok r) (bare : (queryPairs r.path).filter isTokenPair = []) :
    ∃ request, auth.requestPath r = .ok request ∧ fromRequestPath r.origin request = .ok r := by
  have made : auth.requestPath r = .ok (auth.appended r.path) := by
    rw [requestPath_eq, bare]
  refine ⟨_, made, ?_⟩
  obtain ⟨-, components, query, settled⟩ := new_eq_ok built
  have kept : (queryPairs r.path).filter (!isTokenPair ·) = queryPairs r.path :=
    filter_eq_self.mpr (fun pair mem => by simpa using filter_eq_nil_iff.mp bare pair mem)
  have stripped : strippedPath (auth.appended r.path) = r.path := by
    obtain ⟨pairs, head⟩ := appended_spec auth whole r.path
    obtain ⟨cut, -⟩ := pathQuery_eq r.path
    have left : (queryPairs (auth.appended r.path)).filter (!isTokenPair ·) = queryPairs r.path := by
      rw [pairs, filter_append, kept]
      simp [token]
    rw [strippedPath_eq, left, head]
    conv_rhs => rw [cut]
    congr 2
    unfold queryPairs
    cases (pathQuery r.path).2 with
    | none => exact if_pos rfl
    | some query =>
      rw [if_neg (splitOn_ne_nil '&' query), intercalate_splitOn]
  unfold fromRequestPath new
  rw [stripped, settled.normalized]
  rfl

end

/-- A request is stopped exactly when the resource's tokens clash with the captured one; else it
holds that one once, and taking it out gives the resource back. No resource read from a request
path holds a token. -/
theorem one_credential {master : Resource} {auth : InheritedAuth} (captured : InheritedAuth.capture master = .ok auth) (r : Resource) :
    ((∃ e, auth.requestPath r = .error e) ↔ Clashes auth ((queryPairs r.path).filter isTokenPair)) ∧
      (∀ path, auth.requestPath r = .ok path →
        (queryPairs path).filter isTokenPair = [auth.tokenPair] ∧
          (queryPairs path).filter (!isTokenPair ·) = (queryPairs r.path).filter (!isTokenPair ·) ∧
          (pathQuery path).1 = (pathQuery r.path).1) ∧
      (∀ origin path, new origin path = .ok r → (queryPairs r.path).filter isTokenPair = [] →
        ∃ request, auth.requestPath r = .ok request ∧ fromRequestPath r.origin request = .ok r) ∧
      ∀ origin request back, fromRequestPath origin request = .ok back → (queryPairs back.path).filter isTokenPair = [] := by
  obtain ⟨token, whole⟩ := capture_spec captured
  refine ⟨requestPath_error auth r, fun path made => requestPath_ok token whole made, ?_, fun origin request back => fromRequestPath_bare⟩
  exact fun origin path built bare => fromRequestPath_requestPath token whole built bare

theorem one_credential_start :
    ∃ auth request, InheritedAuth.capture ⟨⟨.http, "pms".toList, 32400⟩, "/start.m3u8?session=s&X-Plex-Token=top-secret".toList⟩ = .ok auth ∧
      auth.requestPath ⟨⟨.http, "pms".toList, 32400⟩, "/index.m3u8?part=2".toList⟩ = .ok request ∧
      (queryPairs request).filter isTokenPair = ["X-Plex-Token=top-secret".toList] := by
  have captured : InheritedAuth.capture ⟨⟨.http, "pms".toList, 32400⟩, "/start.m3u8?session=s&X-Plex-Token=top-secret".toList⟩ =
      .ok ⟨"X-Plex-Token=top-secret".toList⟩ := by decide +kernel
  have made : (InheritedAuth.mk "X-Plex-Token=top-secret".toList).requestPath ⟨⟨.http, "pms".toList, 32400⟩, "/index.m3u8?part=2".toList⟩ =
      .ok "/index.m3u8?part=2&X-Plex-Token=top-secret".toList := by decide +kernel
  exact ⟨_, _, captured, made, ((one_credential captured _).2.1 _ made).1⟩

end PlxNative.Hls
