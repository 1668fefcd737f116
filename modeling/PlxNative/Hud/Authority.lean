import Mathlib.Data.List.TakeWhile
import PlxNative.Hud.Address
import PlxNative.Lib.Slices

/-! A typed address cannot name another host: what its URL is read as by who fetches it, and by
the parser once more. -/
namespace PlxNative.Hud.Address
open List Text
attribute [local instance (high)] List.decidableBAll

section

def stripSchemeSliced (text scheme : Text) : Option (Option Text) :=
  if eqIgnoreAsciiCase (text.take scheme.length) scheme then (cutAt (byteLen scheme) text).map (fun cut => some cut.2) else some none

def authoritySliced (rest : Text) : Option Text :=
  (cutAt ((byteFind (fun c => c == '/' || c == '?' || c == '#') rest).getD (byteLen rest)) rest).map Prod.fst

def splitPortSliced (authority : Text) : Option (Except AddressError (Text × Option Text)) :=
  if startsWith '[' authority then
    match byteFind (· == ']') authority with
    | none => some (.error .malformed)
    | some close => (cutAt (close + 1) authority).map (fun cut => match cut.2 with
        | [] => .ok (cut.1, none)
        | ':' :: port => .ok (cut.1, some port)
        | _ => .error .malformed)
  else some (splitPort authority)

/-- What is decided once the authority is split. -/
def webHost (rest : Text) (secure : Bool) : Except AddressError (Text × Option Text) → Except AddressError Address
  | .error why => .error why
  | .ok (host, port) =>
    if host.isEmpty then .error .noHost
    else if !(port.map portInRange).getD true then .error .badPort
    else if secure then
      if !hostName host && !ipv6Literal host then .error .malformed
      else .ok { url := "https://" ++ String.ofList rest, host := String.ofList (bare host), devSource := false }
    else if ((parseIpv4 host).map isPrivate).getD false then
      .ok { url := "http://" ++ String.ofList rest, host := String.ofList host, devSource := true }
    else .error .httpNotPrivate

def webSliced (rest : Text) (secure : Bool) : Option (Except AddressError Address) :=
  if !rest.all urlByte || !percentEscapesWhole rest then some (.error .malformed)
  else (authoritySliced rest).bind fun authority =>
    if authority.contains '@' then some (.error .userinfo) else (splitPortSliced authority).map (webHost rest secure)

/-- The parser as it slices: nothing where a slice starts or ends inside a character. -/
def parseSliced (text : String) : Option (Except AddressError Address) :=
  let text := trim text.toList
  if text.isEmpty then some (.error .empty)
  else if addressLenLimit < byteLen text then some (.error .tooLong)
  else do
    match ← stripSchemeSliced text "gh:".toList with
    | some rest => return github rest
    | none => match ← stripSchemeSliced text "https://".toList with
      | some rest => webSliced rest true
      | none => match ← stripSchemeSliced text "http://".toList with
        | some rest => webSliced rest false
        | none => return .error .form

theorem web_eq (rest : Text) (secure : Bool) : web rest secure =
    if !rest.all urlByte || !percentEscapesWhole rest then .error .malformed
    else if (authorityOf rest).contains '@' then .error .userinfo
    else webHost rest secure (splitPort (authorityOf rest)) := by
  unfold web webHost
  split
  · rfl
  · split
    · rfl
    · cases splitPort (authorityOf rest) <;> rfl

theorem stripScheme_eq_some {text scheme rest : Text} (found : stripScheme text scheme = some rest) :
    ∃ front, text = front ++ rest ∧ front.length = scheme.length ∧ front.map Char.toLower = scheme.map Char.toLower := by
  unfold stripScheme eqIgnoreAsciiCase at found
  split at found
  case isTrue eq =>
    cases found
    have mapped := beq_iff_eq.mp eq
    have long := congrArg List.length mapped
    rw [length_map, length_map] at long
    exact ⟨text.take scheme.length, (take_append_drop _ _).symm, long, mapped⟩
  case isFalse => cases found

theorem toLower_ascii {c : Char} (ascii : c.toLower.toNat < 128) : c.toNat < 128 := by
  unfold Char.toLower at ascii
  split at ascii
  case isTrue capital =>
    have upper := UInt32.le_iff_toNat_le.mp capital.2
    have bound : 'Z'.val.toNat = 90 := rfl
    change c.val.toNat < 128
    omega
  case isFalse => exact ascii

theorem byteLen_of_ascii {s : Text} (ascii : ∀ c ∈ s, c.toNat < 128) : byteLen s = s.length := by
  induction s with
  | nil => rfl
  | cons c s ih =>
    have one : c.utf8Size = 1 := by
      rw [Char.utf8Size_eq_one_iff, UInt32.le_iff_toNat_le]
      exact Nat.le_of_lt_succ (ascii c mem_cons_self)
    rw [byteLen_cons, one, ih fun x mem => ascii x (mem_cons_of_mem _ mem), length_cons, Nat.add_comm]

theorem stripScheme_sliced {scheme : Text} (ascii : ∀ c ∈ scheme.map Char.toLower, c.toNat < 128) (text : Text) :
    stripSchemeSliced text scheme = some (stripScheme text scheme) := by
  cases found : stripScheme text scheme with
  | none =>
    unfold stripScheme at found
    unfold stripSchemeSliced
    split at found
    · cases found
    · rw [if_neg (by assumption)]
  | some rest =>
    obtain ⟨front, whole, long, mapped⟩ := stripScheme_eq_some found
    have plain : ∀ c ∈ front, c.toNat < 128 := fun c mem =>
      toLower_ascii (ascii _ (mapped ▸ mem_map_of_mem mem))
    have plain' : ∀ c ∈ scheme, c.toNat < 128 := fun c mem => toLower_ascii (ascii _ (mem_map_of_mem mem))
    unfold stripScheme at found
    split at found
    case isTrue eq =>
      unfold stripSchemeSliced
      rw [if_pos eq, byteLen_of_ascii plain', ← long, ← byteLen_of_ascii plain, whole, cutAt_append]
      rfl
    case isFalse => cases found

theorem authority_sliced (rest : Text) : authoritySliced rest = some (authorityOf rest) := by
  unfold authoritySliced
  rw [byteFind_takeWhile]
  have eq : rest.takeWhile (fun c => !(c == '/' || c == '?' || c == '#')) = authorityOf rest := by
    congr 1
    simp [bne]
  rw [eq]
  obtain ⟨tail, whole⟩ : authorityOf rest <+: rest := takeWhile_prefix _
  conv => enter [1, 2, 2]; rw [← whole]
  rw [cutAt_append]
  rfl

theorem splitPort_sliced (authority : Text) : splitPortSliced authority = some (splitPort authority) := by
  unfold splitPortSliced splitPort
  split
  case isFalse opened => rfl
  case isTrue opened =>
    cases found : byteFind (· == ']') authority with
    | none =>
      have free : ']' ∉ authority := fun mem => by
        have closed := byteFind_eq_none.mp found _ mem
        exact absurd closed (by decide)
      rw [splitOnce_eq_none.mpr free]
    | some close =>
      obtain ⟨inner, c, tail, rfl, closed, free, rfl⟩ := byteFind_eq_some found
      rw [beq_iff_eq] at closed
      subst closed
      have cut : splitOnce ']' (inner ++ ']' :: tail) = some (inner, tail) := splitOnce_eq_some.mpr ⟨rfl, fun mem => by
        have apart := free _ mem
        exact absurd apart (by decide)⟩
      have size : byteLen inner + 1 = byteLen (inner ++ [']']) := by
        rw [byteLen_append]
        rfl
      have sliced : cutAt (byteLen inner + 1) (inner ++ ']' :: tail) = some (inner ++ [']'], tail) := by
        rw [size, show inner ++ ']' :: tail = (inner ++ [']']) ++ tail by simp, cutAt_append]
      simp only [cut, sliced]
      rcases tail with _ | ⟨x, port⟩
      · rfl
      · by_cases colon : x = ':'
        · subst colon
          rfl
        · simp [colon]

theorem web_sliced (rest : Text) (secure : Bool) : webSliced rest secure = some (web rest secure) := by
  rw [web_eq]
  unfold webSliced
  rw [authority_sliced]
  simp only [Option.bind_some, splitPort_sliced]
  split
  · rfl
  · split <;> rfl

theorem parse_sliced (text : String) : parseSliced text = some (parse text) := by
  unfold parseSliced parse
  simp only
  split
  · rfl
  · split
    · rfl
    · rw [stripScheme_sliced (by decide), stripScheme_sliced (by decide), stripScheme_sliced (by decide)]
      cases stripScheme (trim text.toList) "gh:".toList with
      | some rest => rfl
      | none => cases stripScheme (trim text.toList) "https://".toList with
        | some rest => exact web_sliced rest true
        | none => cases stripScheme (trim text.toList) "http://".toList with
          | some rest => exact web_sliced rest false
          | none => rfl

end
section

/-- The host part of an authority, as who fetches a URL reads it. -/
def hostPart : Text → Text
  | '[' :: inner => inner.takeWhile (· != ']')
  | authority => authority.takeWhile (· != ':')

theorem takeWhile_all {p : Char → Bool} {a b : Text} (all : ∀ c ∈ a, p c = true) (stop : ∀ c ∈ b.head?, p c = false) :
    (a ++ b).takeWhile p = a := by
  rw [takeWhile_append_of_pos all]
  cases b with
  | nil => rw [takeWhile_nil, append_nil]
  | cons c b => rw [takeWhile_cons_of_neg (Bool.not_eq_true _ ▸ stop c rfl), append_nil]

def portText : Option Text → Text
  | none => []
  | some port => ':' :: port

theorem portText_head {port : Option Text} : ∀ c ∈ (portText port).head?, c = ':' := by
  cases port with
  | none => exact nofun
  | some port =>
    rintro c ⟨⟩
    rfl

theorem hostPart_literal {inner : Text} (free : ']' ∉ inner) (port : Option Text) :
    hostPart ('[' :: inner ++ ']' :: portText port) = inner := by
  refine takeWhile_all (fun c mem => ?_) (fun c here => ?_)
  · rw [bne_iff_ne]
    rintro rfl
    exact free mem
  · cases here
    rfl

theorem hostPart_plain {host : Text} (free : ':' ∉ host) (unbracketed : host.head? ≠ some '[') (some_ : host ≠ []) (port : Option Text) :
    hostPart (host ++ portText port) = host := by
  obtain ⟨c, rest, rfl⟩ := exists_cons_of_ne_nil some_
  have plain : hostPart ((c :: rest) ++ portText port) = ((c :: rest) ++ portText port).takeWhile (· != ':') := by
    unfold hostPart
    split
    · rename_i inner opened
      cases opened
      exact absurd rfl unbracketed
    · rfl
  rw [plain]
  refine takeWhile_all (fun x mem => ?_) (fun x here => ?_)
  · rw [bne_iff_ne]
    rintro rfl
    exact free mem
  · rw [portText_head x here]
    rfl

theorem rsplitOnce_eq_some {c : Char} {s a b : Text} (cut : rsplitOnce c s = some (a, b)) : s = a ++ c :: b := by
  obtain ⟨⟨x, y⟩, found, out⟩ := Option.map_eq_some_iff.mp cut
  cases out
  have whole := congrArg List.reverse (splitOnce_eq_some.mp found).1
  rw [reverse_reverse, reverse_append, reverse_cons] at whole
  rw [whole, append_assoc]
  rfl

theorem splitPort_ok {authority host : Text} {port : Option Text} (split : splitPort authority = .ok (host, port)) :
    (∃ inner, ']' ∉ inner ∧ host = '[' :: inner ++ [']'] ∧ authority = '[' :: inner ++ ']' :: portText port) ∨
      authority.head? ≠ some '[' ∧ authority = host ++ portText port := by
  unfold splitPort at split
  split at split
  case isTrue opened =>
    obtain ⟨after, rfl⟩ : ∃ after, authority = '[' :: after := by
      cases authority with
      | nil => cases opened
      | cons c after =>
        have eq : c = '[' := Option.some.inj (beq_iff_eq.mp opened)
        exact ⟨after, by rw [eq]⟩
    left
    split at split
    · cases split
    · rename_i inner cut
      cases split
      obtain ⟨whole, free⟩ := splitOnce_eq_some.mp cut
      cases inner with
      | nil => cases whole
      | cons c inner =>
        cases whole
        exact ⟨inner, fun mem => free (mem_cons_of_mem _ mem), rfl, rfl⟩
    · rename_i inner given cut
      cases split
      obtain ⟨whole, free⟩ := splitOnce_eq_some.mp cut
      cases inner with
      | nil => cases whole
      | cons c inner =>
        cases whole
        exact ⟨inner, fun mem => free (mem_cons_of_mem _ mem), rfl, rfl⟩
    · cases split
  case isFalse opened =>
    have unbracketed : authority.head? ≠ some '[' := fun eq => opened (beq_iff_eq.mpr eq)
    right
    split at split
    · rename_i before given cut
      cases split
      exact ⟨unbracketed, rsplitOnce_eq_some cut⟩
    · cases split
      exact ⟨unbracketed, (append_nil _).symm⟩

theorem hyphenated_chars {limit : Nat} {label : Text} (label_ok : hyphenated limit label = true) : ∀ c ∈ label, c.isAlphanum = true ∨ c = '-' := by
  unfold hyphenated at label_ok
  simp only [Bool.and_eq_true, all_eq_true, Bool.or_eq_true, beq_iff_eq] at label_ok
  exact label_ok.1.1.2

theorem hostName_chars {host : Text} (named : hostName host = true) : ∀ c ∈ host, c.isAlphanum = true ∨ c = '-' ∨ c = '.' := by
  unfold hostName at named
  rw [Bool.and_eq_true, all_eq_true] at named
  intro c mem
  have whole : ['.'].intercalate (host.splitOn '.') = host := intercalate_splitOn '.'
  rcases mem_joined (whole.symm ▸ mem) with dot | ⟨label, known, inside⟩
  · exact .inr (.inr dot)
  · exact (hyphenated_chars (named.2 label known) c inside).imp_right .inl

theorem readDigits_eq_some {digit : Char → Bool} {most : Nat} {s digits rest : Text} (read : readDigits digit most s = some (digits, rest)) :
    s = digits ++ rest ∧ ∀ c ∈ digits, digit c = true := by
  unfold readDigits at read
  simp only at read
  split at read
  case isTrue =>
    cases read
    have whole := takeWhile_append_dropWhile (p := digit) (l := s)
    refine ⟨?_, fun c mem => mem_takeWhile_imp mem⟩
    conv => enter [2, 2, 2]; rw [← whole]
    rw [drop_left, whole]
  case isFalse => cases read

theorem readOctet_eq_some {s rest : Text} {value : Nat} (read : readOctet s = some (value, rest)) :
    ∃ digits, s = digits ++ rest ∧ ∀ c ∈ digits, c.isDigit = true := by
  obtain ⟨⟨digits, after⟩, taken, checked⟩ := Option.bind_eq_some_iff.mp read
  simp only at checked
  split at checked
  · cases checked
  · obtain ⟨n, -, kept⟩ := Option.bind_eq_some_iff.mp checked
    split at kept
    · cases kept
      exact ⟨digits, readDigits_eq_some taken⟩
    · cases kept

theorem readGivenChar_eq_some {c : Char} {s rest : Text} (read : readGivenChar c s = some rest) : s = c :: rest := by
  cases s with
  | nil => cases read
  | cons x s =>
    simp only [readGivenChar] at read
    split at read
    case isTrue eq =>
      cases read
      rw [eq]
    case isFalse => cases read

theorem parseIpv4_chars {s : Text} {octets : List Nat} (read : parseIpv4 s = some octets) : ∀ c ∈ s, c.isDigit = true ∨ c = '.' := by
  unfold parseIpv4 at read
  split at read
  case h_2 => cases read
  case h_1 whole =>
    unfold readIpv4Addr at whole
    simp only [Option.bind_eq_bind, Option.bind_eq_some_iff] at whole
    obtain ⟨⟨a, s₁⟩, first, s₂, dot, ⟨b, s₃⟩, second, s₄, dot', ⟨c, s₅⟩, third, s₆, dot'', ⟨d, s₇⟩, fourth, out⟩ := whole
    cases out
    obtain ⟨digits, rfl, plain⟩ := readOctet_eq_some first
    cases readGivenChar_eq_some dot
    obtain ⟨digits', rfl, plain'⟩ := readOctet_eq_some second
    cases readGivenChar_eq_some dot'
    obtain ⟨digitsThird, rfl, plainThird⟩ := readOctet_eq_some third
    cases readGivenChar_eq_some dot''
    obtain ⟨last, rfl, plainLast⟩ := readOctet_eq_some fourth
    intro x mem
    simp only [mem_append, mem_cons, not_mem_nil, or_false] at mem
    rcases mem with here | dot | here | dot | here | dot | here
    · exact .inl (plain x here)
    · exact .inr dot
    · exact .inl (plain' x here)
    · exact .inr dot
    · exact .inl (plainThird x here)
    · exact .inr dot
    · exact .inl (plainLast x here)

/-- What a fetch of the URL asks, of the host the address shows. -/
structure NamesHost (a : Address) (rest : Text) : Prop where
  url : a.url.toList = (if a.devSource then "http://" else "https://").toList ++ rest
  userinfo : '@' ∉ authorityOf rest
  host : hostPart (authorityOf rest) = a.host.toList
  home : a.devSource = true → ∃ octets, parseIpv4 a.host.toList = some octets ∧ isPrivate octets = true

theorem bare_literal (inner : Text) : bracketed ('[' :: inner ++ [']']) = some inner := by
  unfold bracketed
  rw [show '[' :: inner ++ [']'] = ['['] ++ (inner ++ [']']) by simp, stripPrefix_append, Option.bind_some]
  unfold stripSuffix
  simp

theorem bracketed_unopened {host : Text} (unbracketed : host.head? ≠ some '[') : bracketed host = none := by
  unfold bracketed
  cases found : stripPrefix ['['] host with
  | none => rfl
  | some rest =>
    rw [stripPrefix_eq_some.mp found] at unbracketed
    exact absurd rfl unbracketed

theorem webHost_ok {rest : Text} {secure : Bool} {split : Except AddressError (Text × Option Text)} {a : Address}
    (read : webHost rest secure split = .ok a) : ∃ host port, split = .ok (host, port) ∧ host ≠ [] ∧
      ((secure = true ∧ (hostName host = true ∨ ipv6Literal host = true) ∧
          a = ⟨"https://" ++ String.ofList rest, String.ofList (bare host), false⟩) ∨
        secure = false ∧ (∃ octets, parseIpv4 host = some octets ∧ isPrivate octets = true) ∧
          a = ⟨"http://" ++ String.ofList rest, String.ofList host, true⟩) := by
  unfold webHost at read
  split at read
  · cases read
  · rename_i host port
    refine ⟨host, port, rfl, ?_⟩
    split at read
    · cases read
    · rename_i some_
      refine ⟨fun none_ => some_ (by rw [none_]; rfl), ?_⟩
      split at read
      · cases read
      · split at read
        · rename_i secured
          split at read
          · cases read
          · rename_i named
            cases read
            refine .inl ⟨secured, ?_, rfl⟩
            cases first : hostName host with
            | true => exact .inl rfl
            | false => cases second : ipv6Literal host with
              | true => exact .inr rfl
              | false => exact absurd (by rw [first, second]; rfl) named
        · rename_i secured
          split at read
          · rename_i home
            cases read
            refine .inr ⟨Bool.not_eq_true _ ▸ secured, ?_, rfl⟩
            cases found : parseIpv4 host with
            | none =>
              rw [found] at home
              cases home
            | some octets =>
              rw [found] at home
              exact ⟨octets, rfl, home⟩
          · cases read

theorem web_ok {rest : Text} {secure : Bool} {a : Address} (read : web rest secure = .ok a) :
    (∀ c ∈ rest, urlByte c = true) ∧ '@' ∉ authorityOf rest ∧ webHost rest secure (splitPort (authorityOf rest)) = .ok a := by
  rw [web_eq] at read
  split at read
  · cases read
  · rename_i formed
    split at read
    · cases read
    · rename_i userless
      refine ⟨?_, fun mem => userless (contains_iff_mem.mpr mem), read⟩
      rw [Bool.or_eq_true, not_or, Bool.not_eq_true', Bool.not_eq_false, all_eq_true] at formed
      exact formed.1

theorem web_names {rest : Text} {secure : Bool} {a : Address} (read : web rest secure = .ok a) : NamesHost a rest := by
  obtain ⟨-, userless, hosted⟩ := web_ok read
  obtain ⟨host, port, split, some_, out⟩ := webHost_ok hosted
  have parts := splitPort_ok split
  have plain (free : ':' ∉ host) (unopened : (authorityOf rest).head? ≠ some '[') (whole : authorityOf rest = host ++ portText port) :
      hostPart (authorityOf rest) = host ∧ host.head? ≠ some '[' := by
    have unbracketed : host.head? ≠ some '[' := by
      intro opened
      refine unopened ?_
      rw [whole, List.head?_append, opened]
      rfl
    exact ⟨whole ▸ hostPart_plain free unbracketed some_ port, unbracketed⟩
  rcases out with ⟨rfl, named, rfl⟩ | ⟨rfl, ⟨octets, found, home⟩, rfl⟩
  · refine ⟨by simp, userless, ?_, nofun⟩
    rw [String.toList_ofList]
    rcases parts with ⟨inner, free, rfl, whole⟩ | ⟨unopened, whole⟩
    · rw [whole, hostPart_literal free]
      unfold bare
      rw [bare_literal]
      rfl
    · have named : hostName host = true := named.resolve_right fun literal => by
        unfold ipv6Literal at literal
        have unbracketed : host.head? ≠ some '[' := by
          intro opened
          refine unopened ?_
          rw [whole, List.head?_append, opened]
          rfl
        rw [bracketed_unopened unbracketed] at literal
        cases literal
      have free : ':' ∉ host := fun mem => by
        rcases hostName_chars named _ mem with digit | hyphen | dot
        · exact absurd digit (by decide)
        · cases hyphen
        · cases dot
      obtain ⟨eq, unbracketed⟩ := plain free unopened whole
      unfold bare
      rw [bracketed_unopened unbracketed, eq]
      rfl
  · refine ⟨by simp, userless, ?_, fun _ => ⟨octets, by rw [String.toList_ofList]; exact found, home⟩⟩
    rw [String.toList_ofList]
    have chars := parseIpv4_chars found
    rcases parts with ⟨inner, -, rfl, -⟩ | ⟨unopened, whole⟩
    · rcases chars '[' mem_cons_self with digit | dot
      · exact absurd digit (by decide)
      · cases dot
    · have free : ':' ∉ host := fun mem => by
        rcases chars _ mem with digit | dot
        · exact absurd digit (by decide)
        · cases dot
      exact (plain free unopened whole).1

end
section

theorem urlByte_printed {c : Char} (written : urlByte c = true) : 33 ≤ c.toNat ∧ c.toNat ≤ 126 := by
  unfold urlByte isAsciiAlphanumeric at written
  rcases Bool.or_eq_true_iff.mp written with letter | mark
  · change (decide (_ ∧ _) || (_ && _) || (_ && _)) = true at letter
    simp only [Bool.or_eq_true, Bool.and_eq_true, decide_eq_true_eq, UInt32.le_iff_toNat_le] at letter
    change 33 ≤ c.val.toNat ∧ c.val.toNat ≤ 126
    have bounds : 'A'.val.toNat = 65 ∧ 'Z'.val.toNat = 90 ∧ 'a'.val.toNat = 97 ∧ 'z'.val.toNat = 122 ∧ '0'.val.toNat = 48 ∧ '9'.val.toNat = 57 := by decide
    omega
  · have each : ∀ c ∈ "-._~:/?#[]@!$&'()*+,;=%".toList, 33 ≤ c.toNat ∧ c.toNat ≤ 126 := by decide
    exact each c (contains_iff_mem.mp mark)

theorem urlByte_solid {c : Char} (written : urlByte c = true) : isWhitespace c = false := by
  obtain ⟨low, high⟩ := urlByte_printed written
  simp only [isWhitespace, Bool.or_eq_false_iff, Bool.and_eq_false_iff, decide_eq_false_iff_not, beq_eq_false_iff_ne]
  omega

theorem trim_solid {s : Text} (solid : ∀ c ∈ s, isWhitespace c = false) : trim s = s := by
  have kept {t : Text} (solid : ∀ c ∈ t, isWhitespace c = false) : t.dropWhile isWhitespace = t := by
    cases t with
    | nil => rfl
    | cons c t => rw [dropWhile_cons_of_neg (by rw [solid c mem_cons_self]; exact Bool.false_ne_true)]
  unfold trim
  rw [kept solid, kept fun c mem => solid c (mem_reverse.mp mem), reverse_reverse]

theorem scheme_text {scheme : String} (marks : ∀ c ∈ scheme.toList, urlByte c = true) (written : ∀ c ∈ rest, urlByte c = true) :
    trim (scheme ++ String.ofList rest).toList = scheme.toList ++ rest ∧
      byteLen (scheme.toList ++ rest) = scheme.toList.length + rest.length := by
  have text : (scheme ++ String.ofList rest).toList = scheme.toList ++ rest := by simp
  have chars : ∀ c ∈ scheme.toList ++ rest, urlByte c = true := fun c mem => (mem_append.mp mem).elim (marks c) (written c)
  constructor
  · rw [text]
    exact trim_solid fun c mem => urlByte_solid (chars c mem)
  · rw [byteLen_of_ascii fun c mem => Nat.lt_of_le_of_lt (urlByte_printed (chars c mem)).2 (by decide), length_append]

theorem parse_https {rest : Text} (written : ∀ c ∈ rest, urlByte c = true) (short : rest.length + 8 ≤ addressLenLimit) :
    parse ("https://" ++ String.ofList rest) = web rest true := by
  obtain ⟨text, size⟩ := scheme_text (show ∀ c ∈ "https://".toList, urlByte c = true by decide) written
  have gh : stripScheme ("https://".toList ++ rest) "gh:".toList = none := rfl
  have own : stripScheme ("https://".toList ++ rest) "https://".toList = some rest := rfl
  unfold parse
  simp only [text, gh, own, size]
  rw [if_neg (by simp), if_neg (by simp; omega)]

theorem parse_http {rest : Text} (written : ∀ c ∈ rest, urlByte c = true) (short : rest.length + 7 ≤ addressLenLimit) :
    parse ("http://" ++ String.ofList rest) = web rest false := by
  obtain ⟨text, size⟩ := scheme_text (show ∀ c ∈ "http://".toList, urlByte c = true by decide) written
  have gh : stripScheme ("http://".toList ++ rest) "gh:".toList = none := rfl
  have secure : stripScheme ("http://".toList ++ rest) "https://".toList = none := by cases rest <;> rfl
  have own : stripScheme ("http://".toList ++ rest) "http://".toList = some rest := rfl
  unfold parse
  simp only [text, gh, secure, own, size]
  rw [if_neg (by simp), if_neg (by simp; omega)]

theorem percentEscapesWhole_free {s : Text} (free : '%' ∉ s) : percentEscapesWhole s = true := by
  induction s with
  | nil => rfl
  | cons c s ih =>
    have apart : c ≠ '%' := fun eq => free (eq ▸ mem_cons_self)
    have rest := ih fun mem => free (mem_cons_of_mem _ mem)
    unfold percentEscapesWhole
    split
    · rfl
    · rename_i eq
      cases eq
      exact absurd rfl apart
    · rename_i eq
      cases eq
      rw [rest, Bool.and_true, bne_iff_ne]
      exact apart

end
section

/-- One segment of a path, and not a step up or in place. -/
structure Segment (part : Text) : Prop where
  some_ : part ≠ []
  here : part ≠ ['.']
  up : part ≠ ['.', '.']
  chars : ∀ c ∈ part, c.isAlphanum = true ∨ c ∈ ['-', '_', '.', '+']

theorem nonempty_of_length {part : Text} (long : (decide (1 ≤ part.length)) = true) : part ≠ [] := by
  rintro rfl
  cases long

theorem owner_segment {owner : Text} (named : githubOwner owner = true) : Segment owner := by
  have chars := hyphenated_chars named
  have apart : '.' ∉ owner := fun mem => by
    rcases chars _ mem with letter | hyphen
    · exact absurd letter (by decide)
    · cases hyphen
  unfold githubOwner hyphenated at named
  simp only [Bool.and_eq_true] at named
  refine ⟨nonempty_of_length named.1.1.1.1, ?_, ?_, fun c mem => (chars c mem).imp_right fun eq => by rw [eq]; decide⟩
  · rintro rfl
    exact apart mem_cons_self
  · rintro rfl
    exact apart mem_cons_self

theorem repo_segment {repo : Text} (named : githubRepo repo = true) : Segment repo := by
  unfold githubRepo at named
  simp only [Bool.and_eq_true, all_eq_true, Bool.or_eq_true, beq_iff_eq, bne_iff_ne] at named
  obtain ⟨⟨⟨⟨long, -⟩, chars⟩, here⟩, up⟩ := named
  refine ⟨nonempty_of_length long, here, up, fun c mem => ?_⟩
  rcases chars c mem with ((letter | rfl) | rfl) | rfl
  · exact .inl letter
  · exact .inr (by decide)
  · exact .inr (by decide)
  · exact .inr (by decide)

theorem tag_segment {tag : Text} (named : githubTag tag = true) : Segment tag := by
  unfold githubTag at named
  simp only [Bool.and_eq_true, all_eq_true, Bool.or_eq_true, beq_iff_eq] at named
  obtain ⟨⟨⟨⟨long, -⟩, chars⟩, start⟩, -⟩ := named
  refine ⟨nonempty_of_length long, ?_, ?_, fun c mem => ?_⟩
  · rintro rfl
    cases start
  · rintro rfl
    cases start
  · rcases chars c mem with (((letter | rfl) | rfl) | rfl) | rfl
    · exact .inl letter
    · exact .inr (by decide)
    · exact .inr (by decide)
    · exact .inr (by decide)
    · exact .inr (by decide)

theorem Segment.written {part : Text} (segment : Segment part) : ∀ c ∈ part, urlByte c = true ∧ c ≠ '%' := by
  intro c mem
  rcases segment.chars c mem with letter | mark
  · refine ⟨by unfold urlByte isAsciiAlphanumeric; rw [letter]; rfl, ?_⟩
    rintro rfl
    exact absurd letter (by decide)
  · exact (by decide : ∀ c ∈ ['-', '_', '.', '+'], urlByte c = true ∧ c ≠ '%') c mark

/-- The release a repository's address stands for. -/
inductive Release : Text → Prop
  | latest : Release "latest/download".toList
  | tagged {tag : Text} (segment : Segment tag) (short : tag.length ≤ tagLenLimit) : Release ("download/".toList ++ tag)

def releasePath (owner repo release : Text) : Text :=
  "github.com/".toList ++ (owner ++ ('/' :: (repo ++ ("/releases/".toList ++ (release ++ "/hud.plxhud".toList)))))

theorem githubAddress_url (owner repo release : Text) : githubAddress owner repo (String.ofList release) =
    ⟨"https://" ++ String.ofList (releasePath owner repo release), "github.com", false⟩ := by
  unfold githubAddress releasePath
  congr 1
  apply String.toList_injective
  simp

theorem github_ok {rest : Text} {a : Address} (read : github rest = .ok a) : ∃ owner repo release, Segment owner ∧ owner.length ≤ ownerLenLimit ∧
    Segment repo ∧ repo.length ≤ repoLenLimit ∧ Release release ∧ a = githubAddress owner repo (String.ofList release) := by
  have short {limit : Nat} {s : Text} (bounded : decide (s.length ≤ limit) = true) : s.length ≤ limit := of_decide_eq_true bounded
  unfold github at read
  simp only at read
  split at read
  case h_2 => cases read
  case h_1 owner repo parts =>
    split at read
    · cases read
    · rename_i owned
      rw [Bool.not_eq_true', Bool.not_eq_false] at owned
      split at read
      · cases read
      · rename_i named
        rw [Bool.not_eq_true', Bool.not_eq_false] at named
        have ownerShort : owner.length ≤ ownerLenLimit := by
          unfold githubOwner hyphenated at owned
          simp only [Bool.and_eq_true] at owned
          exact short owned.1.1.1.2
        have repoShort : repo.length ≤ repoLenLimit := by
          unfold githubRepo at named
          simp only [Bool.and_eq_true] at named
          exact short named.1.1.1.2
        split at read
        · cases read
          exact ⟨owner, repo, _, owner_segment owned, ownerShort, repo_segment named, repoShort, .latest, rfl⟩
        · rename_i tag _
          split at read
          · rename_i tagged
            cases read
            have tagShort : tag.length ≤ tagLenLimit := by
              unfold githubTag at tagged
              simp only [Bool.and_eq_true] at tagged
              exact short tagged.1.1.1.2
            refine ⟨owner, repo, _, owner_segment owned, ownerShort, repo_segment named, repoShort, .tagged (tag_segment tagged) tagShort, ?_⟩
            congr 1
            apply String.toList_injective
            simp
          · cases read

theorem Release.written {release : Text} (named : Release release) :
    (∀ c ∈ release, urlByte c = true ∧ c ≠ '%') ∧ release.length ≤ tagLenLimit + 9 := by
  cases named with
  | latest => exact ⟨by decide, by decide⟩
  | tagged segment short =>
    refine ⟨fun c mem => ?_, ?_⟩
    · rcases mem_append.mp mem with mark | inside
      · exact (by decide : ∀ c ∈ "download/".toList, urlByte c = true ∧ c ≠ '%') c mark
      · exact segment.written c inside
    · rw [length_append]
      exact Nat.le_trans (Nat.add_le_add_left short 9) (Nat.le_of_eq (Nat.add_comm _ _))

theorem releasePath_written {owner repo release : Text} (owned : Segment owner) (named : Segment repo) (released : Release release) :
    ∀ c ∈ releasePath owner repo release, urlByte c = true ∧ c ≠ '%' := by
  have marks : ∀ c ∈ "github.com/".toList ++ ('/' :: ("/releases/".toList ++ "/hud.plxhud".toList)), urlByte c = true ∧ c ≠ '%' := by decide
  intro c mem
  unfold releasePath at mem
  simp only [mem_append, mem_cons] at mem
  simp only [mem_append, mem_cons] at marks
  rcases mem with mark | inside | mark | inside | mark | inside | mark
  · exact marks c (.inl mark)
  · exact owned.written c inside
  · exact marks c (.inr (.inl mark))
  · exact named.written c inside
  · exact marks c (.inr (.inr (.inl mark)))
  · exact released.written.1 c inside
  · exact marks c (.inr (.inr (.inr mark)))

theorem web_release {owner repo release : Text} (owned : Segment owner) (named : Segment repo) (released : Release release) :
    web (releasePath owner repo release) true = .ok (githubAddress owner repo (String.ofList release)) := by
  have written := releasePath_written owned named released
  have all : (releasePath owner repo release).all urlByte = true := all_eq_true.mpr fun c mem => (written c mem).1
  have escapes := percentEscapesWhole_free (s := releasePath owner repo release) fun mem => (written _ mem).2 rfl
  have authority : authorityOf (releasePath owner repo release) = "github.com".toList := by
    unfold authorityOf releasePath
    rw [show "github.com/".toList = "github.com".toList ++ ['/'] from rfl, append_assoc]
    exact takeWhile_all (by decide) (by rintro c ⟨⟩; rfl)
  rw [web_eq, all, escapes, authority, githubAddress_url]
  rfl

end
section

variable {text : String} {a : Address}

theorem parse_ok (read : parse text = .ok a) : byteLen (trim text.toList) ≤ addressLenLimit ∧
    ((∃ rest, stripScheme (trim text.toList) "gh:".toList = some rest ∧ github rest = .ok a) ∨
      (stripScheme (trim text.toList) "gh:".toList = none ∧ ∃ rest secure, web rest secure = .ok a ∧
        stripScheme (trim text.toList) (if secure then "https://" else "http://").toList = some rest)) := by
  unfold parse at read
  simp only at read
  split at read
  · cases read
  · split at read
    · cases read
    · rename_i short
      refine ⟨Nat.le_of_not_lt short, ?_⟩
      split at read
      · rename_i rest found
        exact .inl ⟨rest, found, read⟩
      · rename_i rest other found
        exact .inr ⟨other, rest, true, read, found⟩
      · rename_i rest other _ found
        exact .inr ⟨other, rest, false, read, found⟩
      · cases read

theorem stripScheme_short {text scheme rest : Text} (found : stripScheme text scheme = some rest) :
    rest.length + scheme.length ≤ byteLen text := by
  obtain ⟨front, rfl, long, -⟩ := stripScheme_eq_some found
  rw [← long, Nat.add_comm, ← length_append]
  exact length_le_byteLen _

theorem parse_rest (read : parse text = .ok a) :
    ∃ rest, web rest (!a.devSource) = .ok a ∧ rest.length + 8 ≤ addressLenLimit + (if a.devSource then 1 else 0) := by
  obtain ⟨short, ⟨rest, found, named⟩ | ⟨-, rest, secure, read, found⟩⟩ := parse_ok read
  · obtain ⟨owner, repo, release, owned, ownerShort, kept, repoShort, released, rfl⟩ := github_ok named
    refine ⟨releasePath owner repo release, web_release owned kept released, ?_⟩
    have releaseShort := released.written.2
    have marks : "github.com/".toList.length = 11 ∧ "/releases/".toList.length = 10 ∧ "/hud.plxhud".toList.length = 11 := by decide
    unfold releasePath
    simp only [length_append, length_cons]
    unfold ownerLenLimit at ownerShort
    unfold repoLenLimit at repoShort
    unfold tagLenLimit at releaseShort
    unfold addressLenLimit
    omega
  · have size := stripScheme_short found
    obtain ⟨-, -, hosted⟩ := web_ok read
    obtain ⟨host, port, -, -, ⟨rfl, -, rfl⟩ | ⟨rfl, -, rfl⟩⟩ := webHost_ok hosted
    · exact ⟨rest, read, Nat.le_trans size short⟩
    · have size : rest.length + 7 ≤ byteLen (trim text.toList) := size
      refine ⟨rest, read, ?_⟩
      change rest.length + 8 ≤ addressLenLimit + 1
      omega

theorem parse_url (read : parse text = .ok a) : parse a.url = .ok a := by
  obtain ⟨rest, again, short⟩ := parse_rest read
  obtain ⟨written, -, hosted⟩ := web_ok again
  obtain ⟨host, port, -, -, ⟨secured, -, rfl⟩ | ⟨secured, -, rfl⟩⟩ := webHost_ok hosted
  · rw [parse_https written short]
    exact again
  · have short : rest.length + 8 ≤ addressLenLimit + 1 := short
    rw [parse_http written (by omega)]
    exact again

theorem parse_printed (read : parse text = .ok a) :
    ∀ c ∈ a.url.toList, urlByte c = true ∧ 33 ≤ c.toNat ∧ c.toNat ≤ 126 := by
  obtain ⟨rest, again, -⟩ := parse_rest read
  obtain ⟨written, -, -⟩ := web_ok again
  have marks : ∀ c ∈ (if a.devSource then "http://" else "https://").toList, urlByte c = true := by
    cases a.devSource <;> decide
  intro c mem
  rw [(web_names again).url] at mem
  have here := (mem_append.mp mem).elim (marks c) (written c)
  exact ⟨here, urlByte_printed here⟩

/-- Parsing slices between characters only, and an address that parses is the URL of the host
it shows, in the clear only to a machine of the home network; it is its own address again. -/
theorem parse_names_its_host (text : String) :
    parseSliced text = some (parse text) ∧
      ∀ a, parse text = .ok a →
        (∃ rest, NamesHost a rest) ∧ (∀ c ∈ a.url.toList, urlByte c = true ∧ 33 ≤ c.toNat ∧ c.toNat ≤ 126) ∧
          (∀ rest, stripScheme (trim text.toList) "gh:".toList = some rest → a.host = "github.com" ∧
            ∃ owner repo release, Segment owner ∧ Segment repo ∧ Release release ∧
              a.url.toList = "https://github.com/".toList ++ owner ++ '/' :: repo ++ "/releases/".toList ++ release ++ "/hud.plxhud".toList) ∧
          parse a.url = .ok a := by
  refine ⟨parse_sliced text, fun a read => ⟨?_, parse_printed read, fun rest found => ?_, parse_url read⟩⟩
  · obtain ⟨rest, again, -⟩ := parse_rest read
    exact ⟨rest, web_names again⟩
  · obtain ⟨-, ⟨rest', -, named⟩ | ⟨none_, -⟩⟩ := parse_ok read
    · obtain ⟨owner, repo, release, owned, -, kept, -, released, rfl⟩ := github_ok named
      refine ⟨rfl, owner, repo, release, owned, kept, released, ?_⟩
      unfold githubAddress
      simp
    · rw [none_] at found
      cases found

theorem parse_names_its_host_literal : (parse " HTTPS://[2001:db8::1]:8443/hud.json").toOption.map Address.host = some "2001:db8::1" ∧
    ∀ a, parse " HTTPS://[2001:db8::1]:8443/hud.json" = .ok a → parse a.url = .ok a :=
  ⟨by decide +kernel, fun a read => ((parse_names_its_host _).2 a read).2.2.2⟩

end
end PlxNative.Hud.Address
