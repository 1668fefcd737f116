import Mathlib.Data.List.TakeWhile
import PlxNative.Lib.Digits
import PlxNative.Net.Origin

/-! An origin as text: the form it is stored in and URLs are built on, read back as itself. -/
namespace PlxNative.Net
open List Text Parts Option Decimal Usize
open Decimal (Digits written)

def isV6Literal (host : Text) : Bool := ':' ∈ host

namespace Origin

/-- A connection's own port, where its URI has none. -/
def parseConnection (uri : Text) (advertised : Int) : Option Origin :=
  let p := Parts.of uri
  if !p.schemeKnown || p.host.isEmpty || p.portBad then none
  else some (.new p.scheme p.host ((p.port.or (dialPort advertised)).getD defaultPort))

def authority (o : Origin) : Text :=
  if isV6Literal o.host then '[' :: o.host ++ ']' :: ':' :: (toString o.port).toList
  else o.host ++ ':' :: (toString o.port).toList

def base (o : Origin) : Text := o.scheme.asStr ++ "://".toList ++ o.authority

end Origin

def urlHost (url : Text) : Text := (Parts.of url).host

/-- The host of an authority: it has no closing bracket, or neither a colon nor an opening one. -/
structure Bare (host : Text) : Prop where
  path : '/' ∉ host
  brackets : ']' ∉ host ∨ ':' ∉ host ∧ ¬ ['['] <+: host

section
variable {auth host : Text}

theorem stripPrefix_singleton {c : Char} {s rest : Text} : stripPrefix [c] s = some rest ↔ s = c :: rest := stripPrefix_eq_some

theorem hostOf_bare (free : '/' ∉ auth) : Bare (hostOf auth).1 := by
  unfold hostOf
  cases bracket : (stripPrefix ['['] auth).bind (splitOnce ']') with
  | some cut =>
    obtain ⟨rest, opened, closed⟩ := bind_eq_some_iff.mp bracket
    obtain ⟨whole, apart⟩ := splitOnce_eq_some.mp closed
    have eq := stripPrefix_singleton.mp opened
    refine ⟨?_, .inl apart⟩
    intro mem
    apply free
    rw [eq, whole]
    exact mem_cons_of_mem _ (mem_append_left _ mem)
  | none =>
    have unclosed : ['['] <+: auth → ']' ∉ auth := by
      rintro ⟨rest, rfl⟩ closed
      have inner : ']' ∈ rest := by
        rcases mem_cons.mp closed with here | inner
        · cases here
        · exact inner
      have here : stripPrefix ['['] (['['] ++ rest) = some rest := stripPrefix_singleton.mpr rfl
      exact splitOnce_eq_none.mp bracket inner
    cases colon : splitOnce ':' auth with
    | some cut =>
      obtain ⟨whole, apart⟩ := splitOnce_eq_some.mp colon
      refine ⟨fun mem => free (whole ▸ mem_append_left _ mem), ?_⟩
      by_cases opened : ['['] <+: cut.1
      · left
        intro mem
        apply unclosed (opened.trans (whole ▸ prefix_append ..))
        rw [whole]
        exact mem_append_left _ mem
      · exact .inr ⟨apart, opened⟩
    | none =>
      refine ⟨free, ?_⟩
      by_cases opened : ['['] <+: auth
      · exact .inl (unclosed opened)
      · exact .inr ⟨splitOnce_eq_none.mp colon, opened⟩

theorem Bare.unbracket (bare : Bare host) : unbracket host = host := by
  unfold Net.unbracket
  cases opened : stripPrefix ['['] host with
  | none => rfl
  | some rest =>
    have eq := stripPrefix_singleton.mp opened
    rcases bare.brackets with closed | ⟨_, unopened⟩
    · have open_ : ¬ [']'] <:+ rest := by
        rintro ⟨front, rfl⟩
        exact closed (eq ▸ mem_cons_of_mem _ (mem_append_right _ (mem_singleton_self _)))
      have left : stripSuffix [']'] rest = none := by
        unfold stripSuffix
        rw [if_neg (fun closes => open_ (isSuffixOf_iff_suffix.mp closes))]
      rw [bind_some, left]
      rfl
    · exact absurd ⟨rest, eq.symm⟩ unopened

end
section

theorem port_text {port : Int} (low : 1 ≤ port) (high : port ≤ 65535) :
    Digits (toString port).toList ∧ (parseI64 (toString port).toList).bind dialPort = some port := by
  obtain ⟨n, rfl⟩ := Int.eq_ofNat_of_zero_le (show 0 ≤ port by omega)
  have text : (toString (n : Int)).toList = written n := by
    change (String.ofList (Nat.toDigits 10 n)).toList = _
    rw [String.toList_ofList]
    rfl
  have digits := written_digits n
  have halfIs : half = 9223372036854775808 := rfl
  have within : half ≤ size := by decide
  have small : value (written n) < half := by
    rw [value_written]
    omega
  rw [text]
  refine ⟨digits, ?_⟩
  rw [parseI64_digits digits, parse_eq digits (written_ne_nil n) within small, value_written]
  exact if_pos ⟨low, high⟩

end

/-- An origin that was read: its port could be dialled, and its host is bare. -/
structure Origin.Read (o : Origin) : Prop where
  port : 1 ≤ o.port ∧ o.port ≤ 65535
  some_ : o.host ≠ []
  bare : Bare o.host

section
variable {o : Origin} {url rest : Text}

theorem of_port (url : Text) {port : Int} (written : (Parts.of url).port = some port) : 1 ≤ port ∧ port ≤ 65535 := by
  obtain ⟨text, _, dialled⟩ := bind_eq_some_iff.mp written
  unfold dialPort at dialled
  split at dialled
  · injection dialled with dialled
    exact dialled ▸ ‹_›
  · cases dialled

theorem of_bare (url : Text) : Bare (Parts.of url).host := by
  apply hostOf_bare
  intro mem
  have other := mem_takeWhile_imp mem
  simp at other

theorem new_read (url : Text) (some_ : (Parts.of url).host ≠ []) {port : Int} (low : 1 ≤ port ∧ port ≤ 65535) :
    (Origin.new (Parts.of url).scheme (Parts.of url).host port).Read := by
  have eq := (of_bare url).unbracket
  refine ⟨low, ?_, ?_⟩
  · change unbracket (Parts.of url).host ≠ []
    rw [eq]
    exact some_
  · change Bare (unbracket (Parts.of url).host)
    rw [eq]
    exact of_bare url

theorem default_port : 1 ≤ defaultPort ∧ defaultPort ≤ 65535 := by decide

theorem parse_read (parsed : Origin.parse url = some o) : o.Read := by
  unfold Origin.parse at parsed
  simp only at parsed
  split at parsed
  · rename_i known
    simp only [Bool.and_eq_true, Bool.not_eq_true', isEmpty_eq_false_iff] at known
    injection parsed with parsed
    rw [← parsed]
    apply new_read url known.1.2
    cases port : (Parts.of url).port with
    | none => exact default_port
    | some port => exact of_port url ‹_›
  · cases parsed

theorem parseConnection_read {advertised : Int} (parsed : Origin.parseConnection url advertised = some o) : o.Read := by
  unfold Origin.parseConnection at parsed
  simp only at parsed
  split at parsed
  · cases parsed
  · rename_i known
    simp only [Bool.or_eq_true, List.isEmpty_iff, not_or] at known
    injection parsed with parsed
    rw [← parsed]
    apply new_read url known.1.2
    cases port : (Parts.of url).port with
    | some port => exact of_port url ‹_›
    | none =>
      unfold dialPort
      split
      · assumption
      · exact default_port

theorem hostOf_authority (read : o.Read) : hostOf o.authority = (o.host, some (toString o.port).toList) := by
  obtain ⟨digits, _⟩ := port_text read.port.1 read.port.2
  have plain : ∀ c : Char, c.isDigit = false → c ∉ (toString o.port).toList := by
    intro c other mem
    have digit := digits c mem
    rw [other] at digit
    cases digit
  unfold Origin.authority isV6Literal
  by_cases literal : ':' ∈ o.host
  · have closed : ']' ∉ o.host := read.bare.brackets.resolve_right (fun other => other.1 literal)
    rw [if_pos (decide_eq_true literal)]
    have opened : stripPrefix ['['] ('[' :: o.host ++ ']' :: ':' :: (toString o.port).toList) =
        some (o.host ++ ']' :: ':' :: (toString o.port).toList) := stripPrefix_singleton.mpr rfl
    have cut : splitOnce ']' (o.host ++ ']' :: ':' :: (toString o.port).toList) = some (o.host, ':' :: (toString o.port).toList) :=
      splitOnce_eq_some.mpr ⟨rfl, closed⟩
    unfold hostOf
    rw [opened, bind_some, cut]
    simp only
    rw [stripPrefix_singleton.mpr rfl]
  · rw [if_neg (by simpa using literal)]
    have cut : splitOnce ':' (o.host ++ ':' :: (toString o.port).toList) = some (o.host, (toString o.port).toList) :=
      splitOnce_eq_some.mpr ⟨rfl, literal⟩
    have unbracketed : (stripPrefix ['['] (o.host ++ ':' :: (toString o.port).toList)).bind (splitOnce ']') = none := by
      cases opened : stripPrefix ['['] (o.host ++ ':' :: (toString o.port).toList) with
      | none => rfl
      | some inner =>
        apply splitOnce_eq_none.mpr
        have whole := stripPrefix_singleton.mp opened
        rcases read.bare.brackets with closed | ⟨_, unopened⟩
        · intro mem
          have there : ']' ∈ o.host ++ ':' :: (toString o.port).toList := whole ▸ mem_cons_of_mem _ mem
          rcases mem_append.mp there with host | port
          · exact closed host
          · rcases mem_cons.mp port with here | digit
            · cases here
            · exact plain ']' (by decide) digit
        · obtain ⟨first, host, shape⟩ := exists_cons_of_ne_nil read.some_
          rw [shape, cons_append] at whole
          have head := (List.cons.inj whole).1
          exact absurd ⟨host, by rw [shape, head]; rfl⟩ unopened
    unfold hostOf
    rw [unbracketed]
    simp only [cut]

theorem schemeOf_base (scheme : Scheme) (tail : Text) : schemeOf (scheme.asStr ++ "://".toList ++ tail) = (scheme, true, tail) := by
  cases scheme <;> rfl

theorem authority_path (read : o.Read) : '/' ∉ o.authority := by
  obtain ⟨digits, _⟩ := port_text read.port.1 read.port.2
  have plain : '/' ∉ (toString o.port).toList := by
    intro mem
    have digit := digits '/' mem
    cases digit
  have host := read.bare.path
  unfold Origin.authority
  intro mem
  split at mem
  · rcases mem_append.mp mem with front | back
    · rcases mem_cons.mp front with here | inner
      · cases here
      · exact host inner
    · exact plain (by simpa using back)
  · rcases mem_append.mp mem with front | back
    · exact host front
    · exact plain (by simpa using back)

theorem of_base (read : o.Read) (path : rest = [] ∨ ['/'] <+: rest) :
    Parts.of (o.base ++ rest) = ⟨o.scheme, true, o.host, some o.port, false, rest⟩ := by
  obtain ⟨_, port⟩ := port_text read.port.1 read.port.2
  have free := authority_path read
  have scheme : schemeOf (o.base ++ rest) = (o.scheme, true, o.authority ++ rest) := by
    unfold Origin.base
    rw [append_assoc]
    exact schemeOf_base o.scheme (o.authority ++ rest)
  have all : ∀ c ∈ o.authority, decide (c ≠ '/') = true := fun c mem => decide_eq_true (fun eq => free (eq ▸ mem))
  have front : (o.authority ++ rest).takeWhile (· ≠ '/') = o.authority ∧ (o.authority ++ rest).dropWhile (· ≠ '/') = rest := by
    rw [takeWhile_append_of_pos all, dropWhile_append_of_pos all]
    rcases path with rfl | ⟨tail, rfl⟩
    · exact ⟨append_nil _, rfl⟩
    · exact ⟨append_nil _, rfl⟩
  unfold Parts.of
  rw [scheme]
  simp only [front.1, front.2, hostOf_authority read, bind_some, port]
  rfl

theorem Origin.Read.roundTrip (read : o.Read) : Origin.parse o.base = some o ∧
    ∀ rest, rest = [] ∨ ['/'] <+: rest → split (o.base ++ rest) = (o, rest) ∧ urlHost (o.base ++ rest) = o.host := by
  have eq : Origin.new o.scheme o.host o.port = o := by
    unfold Origin.new
    rw [read.bare.unbracket]
  constructor
  · have parts := of_base read (.inl (Eq.refl []))
    rw [append_nil] at parts
    unfold Origin.parse
    rw [parts]
    simp only [Bool.true_and, getD_some, eq]
    exact if_pos (by simpa using read.some_)
  · intro rest path
    have parts := of_base read path
    unfold split urlHost
    rw [parts]
    simp only [getD_some, eq]
    exact ⟨trivial, trivial⟩

/-- An origin that is read, from a URL or a connection, has a port that can be dialled and is read
back from its text. -/
theorem origins_round_trip (u : Text) (advertised : Int) (o : Origin)
    (parsed : Origin.parse u = some o ∨ Origin.parseConnection u advertised = some o) :
    (1 ≤ o.port ∧ o.port ≤ 65535) ∧ Origin.parse o.base = some o ∧
      ∀ rest, rest = [] ∨ ['/'] <+: rest → split (o.base ++ rest) = (o, rest) ∧ urlHost (o.base ++ rest) = o.host := by
  have read : o.Read := parsed.elim parse_read parseConnection_read
  exact ⟨read.port, read.roundTrip⟩

theorem origins_round_trip_v6 :
    Origin.parse "http://[::1]:80/library".toList = some ⟨.http, "::1".toList, 80⟩ ∧
      split (Origin.base ⟨.http, "::1".toList, 80⟩ ++ "/identity".toList) = (⟨.http, "::1".toList, 80⟩, "/identity".toList) := by
  have parsed : Origin.parse "http://[::1]:80/library".toList = some ⟨.http, "::1".toList, 80⟩ := by decide +kernel
  obtain ⟨_, _, front⟩ := origins_round_trip "http://[::1]:80/library".toList 443 _ (.inl parsed)
  exact ⟨parsed, (front "/identity".toList (.inr ⟨_, rfl⟩)).1⟩

end
end PlxNative.Net
