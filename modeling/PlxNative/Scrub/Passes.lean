import Mathlib.Data.List.Infix
import PlxNative.Net.IpAddr
import PlxNative.Scrub.Addresses
import PlxNative.Scrub.Params

/-! Every pass over a log line, and what the ones after the parameters leave of it. -/
namespace PlxNative.Scrub
open List Text Option Bool
open Net
attribute [local instance (high)] List.decidableBAll Option.decidableForallMem

def credentialHeaders : List Text :=
  ["authorization:", "cookie:", "set-cookie:", "x-plex-token:", "proxy-authorization:"].map String.toList

def minIdentity : Nat := 4

/-- The loop over the places of a mark: what is pushed for the mark and what follows it, and what is left to go over. -/
def eachMark (mark : Text) (rewrite : Text → Text × Option Text) : Nat → Text → Option Text
  | 0, _ => none
  | fuel + 1, rest => match splitOnText mark rest with
    | none => some rest
    | some (before, after) => match rewrite after with
      | (pushed, none) => some (before ++ pushed)
      | (pushed, some left) => (eachMark mark rewrite fuel left).map (before ++ pushed ++ ·)

/-- A loop that finds nothing gives the line back, as the test for the mark before it does. -/
def overMarks (mark : Text) (rewrite : Text → Text × Option Text) (s : Text) : Option Text := eachMark mark rewrite (s.length + 1) s

def redactTokens (m : Text) : Option Text :=
  overMarks "X-Plex-Token=".toList (fun after =>
    ("X-Plex-Token=".toList ++ redacted, some (after.drop (paramValue after).length))) m

def scrubHeaders (s : Text) : Text :=
  match (credentialHeaders.filterMap fun h => (splitOnText h (lower s)).map fun cut => cut.1.length + h.length).min? with
  | some end_ => s.take end_ ++ ' ' :: redacted
  | none => s

def scrubAuthority (s : Text) : Option Text :=
  overMarks "://".toList (fun after =>
    let host := after.takeWhile fun c => !(c == '/' || c == '?' || isWhitespace c)
    if host.length = 0 then ("://".toList, some after)
    else ("://".toList ++ "<host>".toList, some (after.drop host.length))) s

def scrubHostKv (s : Text) : Option Text :=
  overMarks "host=".toList (fun after =>
    let val := after.takeWhile fun c => !isWhitespace c
    if val.isEmpty || val.head? == some '<' || "0x".toList.isPrefixOf (lower val) then
      ("host=".toList ++ val, some (after.drop val.length))
    else ("host=".toList ++ "<host>".toList, some (after.drop val.length))) s

def replaceGuids (s : Text) : Option Text :=
  overMarks "plex://".toList (fun after =>
    ("plex://".toList ++ "<guid>".toList, some (after.dropWhile fun c => !(isWhitespace c || c == '\'' || c == '"')))) s

def replaceQuotedValue (s key : Text) (close : Char) (placeholder : Text) : Option Text :=
  overMarks key (fun after => match splitOnce close after with
    | some (_, left) => (key ++ placeholder ++ [close], some left)
    | none => (key ++ placeholder, none)) s

def scrubViewing (s : Text) : Option Text :=
  (replaceGuids s).bind fun s => replaceQuotedValue s "q='".toList '\'' "<query>".toList

/-- `str::replace` of a text that is not empty. -/
def replaceAll (id by_ s : Text) : Option Text := overMarks id (fun after => (by_, some after)) s

def scrubIdentities : Text → List Text → Option Text
  | s, [] => some s
  | s, id :: ids =>
    if minIdentity ≤ id.length then (replaceAll id "<name>".toList s).bind fun out => scrubIdentities out ids
    else scrubIdentities s ids

def parseIpv6 (token : Text) : Option (List Nat) :=
  (IpAddr.readIpv6Addr token).bind fun read => if read.2.isEmpty then some read.1 else none

/-- An address, with the port that the probe writes behind it. -/
def parseBareIpv6 (token : Text) : Option (List Nat) :=
  match parseIpv6 token with
  | some addr => some addr
  | none => (throughLast ':' token).bind fun front =>
    let port := token.drop front.length
    if !port.isEmpty && port.all Char.isDigit && (Usize.parse 65536 port).isSome then parseIpv6 front.dropLast else none

def isUnspecified (segments : List Nat) : Bool := segments == List.replicate 8 0

def keepIpv6 (segments : List Nat) : Bool := IpAddr.isLoopbackV6 segments || isUnspecified segments

def portText : Text → Text
  | ':' :: rest =>
    let digits := rest.takeWhile Char.isDigit
    if !digits.isEmpty && (Usize.parse 65536 digits).isSome then ':' :: digits else []
  | _ => []

def trimDots (s : Text) : Text := (s.reverse.dropWhile (· == '.')).reverse

def wordChar (c : Char) : Bool := c.isAlphanum || c == '_'

/-- The address that starts here with what it is written as, when one does. The tests of bytes are of ASCII ones, and places are
counted in characters. -/
def ipv6Here (prev : Option Char) : Text → Option (List Nat × Text)
  | [] => none
  | c :: rest =>
    if c == '[' then (splitOnce ']' rest).bind fun cut => (parseIpv6 cut.1).map fun addr =>
      (addr, '[' :: cut.1 ++ ']' :: portText cut.2)
    else if !prev.any (fun p => wordChar p || p == ':') && (c == ':' || isAsciiHexdigit c) then
      let run := (c :: rest).takeWhile fun x => isAsciiHexdigit x || x == ':' || x == '.'
      let token := trimDots run
      if !(((c :: rest).drop token.length).head?.any wordChar) then (parseBareIpv6 token).map fun addr => (addr, token)
      else none
    else none

def ipv6Loop : Nat → Option Char → Text → Option Text
  | _, _, [] => some []
  | 0, _, _ :: _ => none
  | fuel + 1, prev, c :: rest =>
    match ipv6Here prev (c :: rest) with
    | some (addr, written) =>
      (ipv6Loop fuel (written.getLast?.or prev) ((c :: rest).drop written.length)).map
        ((if keepIpv6 addr then written else placeholder) ++ ·)
    | none => (ipv6Loop fuel (some c) rest).map (c :: ·)

def scrubIpv6 (s : Text) : Option Text := ipv6Loop s.length none s

def scrubLocalWith (line : Text) (ids : List Text) : Option Text := do
  let s ← redactTokens line
  let s ← scrubParams (scrubHeaders s)
  let s ← scrubAuthority s
  let s ← scrubHostKv s
  let s ← scrubIpv6 s
  let s ← scrubAddresses s
  let s ← scrubViewing s
  scrubIdentities s ids

inductive Scrubbed where
  | keep (line : Text)
  | refuse

/-- The remote exit makes the same rewrites, and drops a line that still looks as if it held a credential. -/
def scrubWith (line : Text) (ids : List Text) : Option Scrubbed := do
  let s ← redactTokens line
  let s ← scrubParams (scrubHeaders s)
  let s ← scrubAuthority s
  let s ← scrubHostKv s
  let s ← scrubIpv6 s
  let s ← scrubAddresses s
  let s ← scrubViewing s
  let s ← scrubIdentities s ids
  if stillLooksSecret s then some .refuse else some (.keep s)

/-- What starts here starts neither in a redacted value nor at the separator behind it. -/
def Spared (before s : Text) : Prop :=
  ∀ p t, before = p ++ t → endKeys p ≠ [] → ∀ tail, t ++ s = redacted ++ tail → (∀ c ∈ tail.head?, separator c = true) →
    redacted.length < t.length

/-- What a pass puts in place of a text: it holds no key, and none runs over its end. -/
structure Mark (mark : Text) : Prop where
  unsigned : '=' ∉ mark
  closed : mark.getLast? = some '>'

/-- A pass goes over what is left of a text: it copies, or puts a mark in place of what starts here. -/
inductive Rewrites : Text → Text → Text → Prop
  | done {before} : Rewrites before [] []
  | copy {before c rest out} (next : Rewrites (before ++ [c]) rest out) : Rewrites before (c :: rest) (c :: out)
  | cut {before gone rest mark out} (spared : Spared before (gone ++ rest)) (shape : Mark mark)
      (next : Rewrites (before ++ gone) rest out) : Rewrites before (gone ++ rest) (mark ++ out)

section
variable {before rest out s : Text}

theorem Rewrites.copies (w : Text) (next : Rewrites (before ++ w) rest out) : Rewrites before (w ++ rest) (w ++ out) := by
  induction w generalizing before with
  | nil => simpa using next
  | cons c w ih => exact .copy (ih (by simpa using next))

theorem Rewrites.all (before s : Text) : Rewrites before s s := by
  induction s generalizing before with
  | nil => exact .done
  | cons c s ih => exact .copy (ih _)

theorem Rewrites.value (rewrites : Rewrites before rest out) {p t tail : Text} (place : before = p ++ t) (ended : endKeys p ≠ [])
    (short : t.length ≤ redacted.length) (whole : t ++ rest = redacted ++ tail) (ends : ∀ c ∈ tail.head?, separator c = true) :
    Redacted (t ++ out) := by
  induction rewrites generalizing t tail with
  | done => exact ⟨tail, whole, ends⟩
  | @copy before c rest out next ih =>
    rcases Nat.lt_or_eq_of_le short with inside | over_
    · have last := ih (t := t ++ [c]) (by rw [place, append_assoc]) (by rw [length_append]; exact inside)
        (by simpa using whole) ends
      simpa using last
    · obtain ⟨rfl, rfl⟩ := append_inj whole over_
      exact ⟨c :: out, rfl, ends⟩
  | cut spared shape next ih => exact absurd (spared p t place ended tail whole ends) (Nat.not_lt.mpr short)

/-- What ends the text written, of characters no mark is bracketed by, ends the text read. -/
def Trails (written before : Text) : Prop := ∀ w, '>' ∉ w → w <:+ written → w <:+ before

theorem Trails.copy {written : Text} (trails : Trails written before) (c : Char) : Trails (written ++ [c]) (before ++ [c]) := by
  intro w free last
  rcases suffix_concat_iff.mp last with rfl | ⟨w, rfl, inner⟩
  · exact nil_suffix
  · obtain ⟨r, whole⟩ := trails w (fun mem => free (mem_append_left _ mem)) inner
    exact ⟨r, by rw [← whole, append_assoc]⟩

theorem Trails.cut {mark : Text} (shape : Mark mark) (written before : Text) : Trails (written ++ mark) before := by
  intro w free last
  rcases eq_nil_or_concat w with rfl | ⟨w, c, rfl⟩
  · exact nil_suffix
  · obtain ⟨m, rfl⟩ := List.getLast?_eq_some_iff.mp shape.closed
    rw [concat_eq_append] at last free
    obtain ⟨r, whole⟩ := last
    rw [← append_assoc, ← append_assoc] at whole
    have eq := (List.cons.inj (append_inj' whole rfl).2).1
    exact absurd (by simp [eq]) free

theorem Rewrites.clean_from (rewrites : Rewrites before rest out) {o : Text} (trails : Trails o before)
    (clean : Clean (before ++ rest)) : ∀ a b, out = a ++ b → a ≠ [] → endKeys (o ++ a) ≠ [] → Redacted b := by
  induction rewrites generalizing o with
  | done => exact fun a b split some_ => absurd (append_eq_nil_iff.mp split.symm).1 some_
  | @copy before c rest out next ih =>
    intro a b split some_ ended
    obtain ⟨x, a, rfl⟩ := exists_cons_of_ne_nil some_
    obtain ⟨rfl, rest_⟩ := List.cons.inj split
    have whole : Clean (before ++ [c] ++ rest) := by simpa using clean
    by_cases last : a = []
    · subst last
      obtain ⟨k, mem⟩ := exists_key ended
      obtain ⟨q, m, text, eq, smooth⟩ := key_text mem
      have copied : m ++ ['='] <:+ before ++ [c] := trails.copy c _ (fun inside => by
        rcases mem_append.mp inside with name | sign
        · exact absurd (smooth '>' name) (by decide)
        · exact absurd (mem_singleton.mp sign) (by decide)) ⟨q, text.symm⟩
      have here : endKeys (before ++ [c]) ≠ [] := by
        refine ended_of_mem (mem_endKeys.mpr ⟨(mem_endKeys.mp mem).1, ?_⟩)
        rw [← eq]
        exact copied.map Char.toLower
      obtain ⟨tail, value_, ends⟩ := whole (before ++ [c]) rest rfl here
      have redone := next.value (t := []) (by simp) here (Nat.zero_le _) value_ ends
      rw [nil_append, rest_] at redone
      exact redone
    · exact ih (trails.copy c) whole a b rest_ last (by simpa using ended)
  | @cut before gone rest mark out spared shape next ih =>
    intro a b split some_ ended
    obtain ⟨q, sign⟩ := ended_sign ended
    rcases append_eq_append_iff.mp split with ⟨more, rfl, rest_⟩ | ⟨more, eq, rest_⟩
    · by_cases last : more = []
      · subst last
        obtain ⟨m, rfl⟩ := List.getLast?_eq_some_iff.mp shape.closed
        rw [append_nil, ← append_assoc] at sign
        exact absurd (List.cons.inj (append_inj' sign rfl).2).1 (by decide)
      · exact ih (Trails.cut shape o _) (by simpa using clean) more b rest_ last (by simpa using ended)
    · rcases eq_nil_or_concat a with rfl | ⟨a, c, rfl⟩
      · exact absurd rfl some_
      · rw [concat_eq_append, ← append_assoc] at sign
        obtain ⟨-, equals⟩ := append_inj' sign rfl
        refine absurd ?_ shape.unsigned
        rw [eq, concat_eq_append, equals]
        simp

theorem Rewrites.clean (rewrites : Rewrites [] s out) (clean : Clean s) : Clean out := by
  intro p b split ended
  refine rewrites.clean_from (o := []) (fun w _ last => last) clean p b split ?_ ended
  rintro rfl
  exact ended endKeys_nil

end
section
variable {before rest out s : Text}

theorem addr_mark : Mark placeholder := ⟨by decide, by decide⟩

theorem spared_of_head {c : Char} (apart : c ∉ redacted) (inner : separator c = false) (before s : Text) : Spared before (c :: s) := by
  intro p t _ _ tail whole ends
  rcases append_eq_append_iff.mp whole with ⟨more, eq, shape⟩ | ⟨more, rfl, shape⟩
  · cases more with
    | nil =>
      have first := ends c (by rw [← nil_append tail, ← shape]; rfl)
      rw [inner] at first
      exact absurd first Bool.false_ne_true
    | cons x more =>
      refine absurd ?_ apart
      rw [eq, (List.cons.inj shape).1]
      simp
  · cases more with
    | nil =>
      have first := ends c (by rw [shape]; rfl)
      rw [inner] at first
      exact absurd first Bool.false_ne_true
    | cons x more =>
      simp only [length_append, length_cons]
      omega

/-- A text behind a mark that no key and no front of the placeholder can end. -/
def Anchor (mark : Text) : Prop := ∀ p t, mark <:+ p ++ t → endKeys p ≠ [] → ¬ t <+: redacted

theorem anchor_of_last {m : Text} {c : Char} (apart : c ∉ redacted) (other : c ≠ '=') : Anchor (m ++ [c]) := by
  rintro p t last ended ⟨more, whole⟩
  obtain ⟨r, eq⟩ := last
  rcases eq_nil_or_concat t with rfl | ⟨t, x, rfl⟩
  · obtain ⟨q, rfl⟩ := ended_sign ended
    rw [append_nil, ← append_assoc] at eq
    exact other (List.cons.inj (append_inj' eq rfl).2).1
  · rw [concat_eq_append, ← append_assoc, ← append_assoc] at eq
    rw [(List.cons.inj (append_inj' eq rfl).2).1, ← whole] at apart
    exact apart (by simp)

theorem host_anchor : Anchor "host=".toList := by
  rintro p t last ended ⟨more, whole⟩
  rcases eq_nil_or_concat t with rfl | ⟨t, x, rfl⟩
  · obtain ⟨k, mem⟩ := exists_key ended
    obtain ⟨key, ends⟩ := mem_endKeys.mp mem
    rw [append_nil] at last
    have host : "host=".toList <:+ lower p := last.map Char.toLower
    have apart : ∀ k ∈ credentialParams, ¬ k <:+ "host=".toList ∧ ¬ "host=".toList <:+ k := by decide +kernel
    rcases suffix_or_suffix_of_suffix ends host with inside | outside
    · exact (apart k key).1 inside
    · exact (apart k key).2 outside
  · obtain ⟨r, eq⟩ := last
    rw [concat_eq_append, show "host=".toList = "host".toList ++ ['='] from rfl, ← append_assoc, ← append_assoc] at eq
    have sign := (List.cons.inj (append_inj' eq rfl).2).1
    refine absurd ?_ redacted_plain.1
    rw [← whole, concat_eq_append, sign]
    simp

variable {mark : Text}

theorem Anchor.spared (anchor : Anchor mark) (last : mark <:+ before) : Spared before s := by
  intro p t place ended tail whole ends
  by_contra short
  refine anchor p t (place ▸ last) ended ?_
  exact prefix_of_prefix_length_le ⟨s, whole⟩ (prefix_append redacted tail) (Nat.le_of_not_lt short)

/-- What a pass makes of what stands behind its mark: a front that it copies, a mark for what it cuts, and a front of the rest. -/
inductive Replaces (mark after : Text) : Text × Option Text → Prop
  | copied (kept left : Text) (whole : after = kept ++ left) : Replaces mark after (mark ++ kept, some left)
  | cut (gone kept left shown : Text) (whole : after = gone ++ kept ++ left) (shape : Mark shown) :
      Replaces mark after (mark ++ shown ++ kept, some left)
  | last (shown : Text) (shape : Mark shown) : Replaces mark after (mark ++ shown, none)

variable {rewrite : Text → Text × Option Text}

theorem eachMark_rewrites (some_ : mark ≠ [])
    (replaces : ∀ after, Replaces mark after (rewrite after)) {fuel : Nat} (enough : s.length < fuel) (before : Text) :
    ∃ out, eachMark mark rewrite fuel s = some out ∧ (Anchor mark → Rewrites before s out) := by
  induction fuel generalizing before s with
  | zero => exact absurd enough (Nat.not_lt_zero _)
  | succ fuel ih =>
    unfold eachMark
    cases cut : splitOnText mark s with
    | none => exact ⟨s, rfl, fun _ => .all before s⟩
    | some pair =>
      obtain ⟨front, after⟩ := pair
      obtain ⟨rfl, -⟩ := splitOnText_eq_some some_ cut
      have pos := length_pos_of_ne_nil some_
      simp only [length_append] at enough
      have anchored : mark <:+ before ++ front ++ mark := suffix_append ..
      simp only
      generalize made : rewrite after = result
      have shape := replaces after
      rw [made] at shape
      cases shape with
      | copied kept left whole =>
        subst whole
        rw [length_append] at enough
        obtain ⟨out, ran, rewrites⟩ := ih (s := left) (by omega) (before ++ (front ++ mark ++ kept))
        refine ⟨front ++ (mark ++ kept) ++ out, by simp only [ran, map_some], fun anchor => ?_⟩
        have copied := (rewrites anchor).copies (front ++ mark ++ kept)
        simpa using copied
      | cut gone kept left shown whole shape =>
        subst whole
        simp only [length_append] at enough
        obtain ⟨out, ran, rewrites⟩ := ih (s := left) (by omega) (before ++ (front ++ mark) ++ gone ++ kept)
        refine ⟨front ++ (mark ++ shown ++ kept) ++ out, by simp only [ran, map_some], fun anchor => ?_⟩
        have copied := (Rewrites.cut (anchor.spared (by simpa using anchored)) shape ((rewrites anchor).copies kept)).copies (front ++ mark)
        simpa using copied
      | last shown shape =>
        refine ⟨front ++ (mark ++ shown), rfl, fun anchor => ?_⟩
        have spared : Spared (before ++ (front ++ mark)) (after ++ []) := anchor.spared (by simpa using anchored)
        have copied := (Rewrites.cut spared shape .done).copies (front ++ mark)
        simpa using copied

theorem overMarks_clean (some_ : mark ≠ []) (anchor : Anchor mark)
    (replaces : ∀ after, Replaces mark after (rewrite after)) (s : Text) :
    ∃ out, overMarks mark rewrite s = some out ∧ (Clean s → Clean out) := by
  obtain ⟨out, ran, rewrites⟩ := eachMark_rewrites some_ replaces (Nat.lt_succ_self s.length) []
  exact ⟨out, ran, (rewrites anchor).clean⟩

theorem host_mark : Mark "<host>".toList := ⟨by decide, by decide⟩

theorem scrubAuthority_clean (s : Text) : ∃ out, scrubAuthority s = some out ∧ (Clean s → Clean out) := by
  have anchor : Anchor "://".toList := anchor_of_last (m := "://".toList.dropLast) (c := '/') (by decide) (by decide)
  refine overMarks_clean (by decide) anchor (fun after => ?_) s
  simp only
  split
  · exact .copied [] after rfl
  · refine .cut (after.takeWhile fun c => !(c == '/' || c == '?' || isWhitespace c)) [] _ "<host>".toList ?_ host_mark
    rw [append_nil, drop_takeWhile, takeWhile_append_dropWhile]

theorem scrubHostKv_clean (s : Text) : ∃ out, scrubHostKv s = some out ∧ (Clean s → Clean out) := by
  refine overMarks_clean (by decide) host_anchor (fun after => ?_) s
  simp only
  split
  · refine .copied _ _ ?_
    rw [drop_takeWhile, takeWhile_append_dropWhile]
  · refine .cut (after.takeWhile fun c => !isWhitespace c) [] _ "<host>".toList ?_ host_mark
    rw [append_nil, drop_takeWhile, takeWhile_append_dropWhile]

theorem replaceGuids_clean (s : Text) : ∃ out, replaceGuids s = some out ∧ (Clean s → Clean out) := by
  have anchor : Anchor "plex://".toList := anchor_of_last (m := "plex://".toList.dropLast) (c := '/') (by decide) (by decide)
  refine overMarks_clean (by decide) anchor (fun after => ?_) s
  refine .cut (after.takeWhile fun c => !(isWhitespace c || c == '\'' || c == '"')) [] _ "<guid>".toList ?_ ⟨by decide, by decide⟩
  rw [append_nil, takeWhile_append_dropWhile]

theorem quoted_clean (s : Text) :
    ∃ out, replaceQuotedValue s "q='".toList '\'' "<query>".toList = some out ∧ (Clean s → Clean out) := by
  have anchor : Anchor "q='".toList := anchor_of_last (m := "q=".toList) (c := '\'') (by decide) (by decide)
  have shape : Mark "<query>".toList := ⟨by decide, by decide⟩
  refine overMarks_clean (by decide) anchor (fun after => ?_) s
  cases cut : splitOnce '\'' after with
  | none => exact .last "<query>".toList shape
  | some pair =>
    obtain ⟨gone, left⟩ := pair
    obtain ⟨rfl, -⟩ := splitOnce_eq_some.mp cut
    exact .cut gone ['\''] left "<query>".toList (by simp) shape

theorem scrubViewing_clean (s : Text) : ∃ out, scrubViewing s = some out ∧ (Clean s → Clean out) := by
  obtain ⟨mid, ran, kept⟩ := replaceGuids_clean s
  obtain ⟨out, ran_, kept_⟩ := quoted_clean mid
  exact ⟨out, by rw [scrubViewing, ran]; exact ran_, kept_ ∘ kept⟩

theorem Scrubs.rewrites {prev : Option Char} (scrubs : Scrubs prev rest out) (before : Text) : Rewrites before rest out := by
  induction scrubs generalizing before with
  | done => exact .done
  | other plain next ih => exact .copy (ih _)
  | token run some_ ends unknown next ih => exact (ih _).copies _
  | kept quad exempt port_ apart ends next ih => exact (ih _).copies _
  | replaced quad port_ apart ends next ih =>
    refine .cut ?_ addr_mark (ih _)
    obtain ⟨c, digits, rfl, digit⟩ := quad.starts
    have plain : ∀ c ∈ redacted, c.isDigit = false := by decide
    refine spared_of_head (fun mem => ?_) ?_ _ _
    · rw [plain c mem] at digit
      exact Bool.false_ne_true digit
    · have bounds := Decimal.digit_bounds digit
      exact solid (Nat.lt_of_lt_of_le (by decide) bounds.1) (Nat.le_trans bounds.2 (by decide))

end
section
variable {before rest : Text}

theorem scrubAddresses_clean (s : Text) : ∃ out, scrubAddresses s = some out ∧ (Clean s → Clean out) := by
  obtain ⟨out, ran, scrubs⟩ := scrubAddresses_scrubs s
  exact ⟨out, ran, (scrubs.rewrites []).clean⟩

theorem placeholder_words : ∀ t ∈ redacted.inits, ∀ c ∈ (redacted.drop t.length).head?, c = ':' ∨ isAsciiHexdigit c = true →
    t.getLast?.any wordChar = true := by decide +kernel

theorem solid_hex {c : Char} (inside : c = ':' ∨ isAsciiHexdigit c = true) : separator c = false := by
  rcases inside with rfl | hex
  · decide
  · have bounds : '0' ≤ c ∧ c ≤ 'f' := by
      unfold isAsciiHexdigit at hex
      simp only [or_eq_true, and_eq_true, decide_eq_true_eq] at hex
      rcases hex with (digit | ⟨low, high⟩) | ⟨low, high⟩
      · have bounds := Decimal.digit_bounds digit
        exact ⟨bounds.1, Char.le_trans bounds.2 (by decide)⟩
      · exact ⟨Char.le_trans (by decide) low, high⟩
      · exact ⟨Char.le_trans (by decide) low, Char.le_trans high (by decide)⟩
    exact solid (Nat.lt_of_lt_of_le (by decide) bounds.1) (Nat.le_trans bounds.2 (by decide))

theorem spared_of_boundary {c : Char} {s : Text} (opens : before.getLast?.any (fun p => wordChar p || p == ':') = false)
    (inside : c = ':' ∨ isAsciiHexdigit c = true) : Spared before (c :: s) := by
  have apart := solid_hex inside
  intro p t place ended tail whole ends
  by_contra short
  have beyond : tail ≠ c :: s := fun eq => by
    have first := ends c (by rw [eq]; rfl)
    rw [apart] at first
    exact Bool.false_ne_true first
  rcases append_eq_append_iff.mp whole with ⟨more, eq, shape⟩ | ⟨more, rfl, shape⟩
  · cases more with
    | nil => exact beyond shape.symm
    | cons x more =>
      obtain ⟨rfl, -⟩ := List.cons.inj shape
      have next : c ∈ (redacted.drop t.length).head? := by
        rw [eq, drop_left]
        exact rfl
      have word := placeholder_words t ((mem_inits t redacted).mpr ⟨c :: more, eq.symm⟩) c next inside
      have some_ : t ≠ [] := by
        rintro rfl
        cases word
      rw [place, List.getLast?_append, List.getLast?_eq_some_getLast some_, some_or, any_some] at opens
      rw [List.getLast?_eq_some_getLast some_, any_some] at word
      rw [word, Bool.true_or] at opens
      cases opens
  · cases more with
    | nil => exact beyond shape
    | cons x more =>
      simp only [length_append, length_cons] at short
      omega

theorem portText_front (s : Text) : portText s <+: s := by
  unfold portText
  split
  · simp only
    split
    · exact cons_prefix_cons.mpr ⟨rfl, takeWhile_prefix _⟩
    · exact nil_prefix
  · exact nil_prefix

theorem trimDots_front (s : Text) : trimDots s <+: s := by
  have inner : s.reverse.dropWhile (· == '.') <:+ s.reverse := dropWhile_suffix _
  have outer := reverse_prefix.mpr inner
  rwa [reverse_reverse] at outer

theorem ipv6Here_spec {prev : Option Char} {addr : List Nat} {written : Text} (found : ipv6Here prev rest = some (addr, written)) :
    ∃ c more left, rest = written ++ left ∧ written = c :: more ∧
      (c = '[' ∨ prev.any (fun p => wordChar p || p == ':') = false ∧ (c = ':' ∨ isAsciiHexdigit c = true)) := by
  cases rest with
  | nil => cases found
  | cons c rest =>
    unfold ipv6Here at found
    simp only at found
    split at found
    case isTrue bracket =>
      obtain ⟨⟨body, after⟩, cut, read⟩ := Option.bind_eq_some_iff.mp found
      obtain ⟨_, -, eq⟩ := Option.map_eq_some_iff.mp read
      cases eq
      obtain ⟨rfl, -⟩ := splitOnce_eq_some.mp cut
      obtain ⟨left, whole⟩ := portText_front after
      refine ⟨'[', _, left, ?_, rfl, .inl rfl⟩
      have parts : body ++ ']' :: after = body ++ ']' :: (portText after ++ left) := by rw [whole]
      rw [eq_of_beq bracket, parts]
      simp
    case isFalse =>
      split at found
      case isTrue begins =>
        rw [and_eq_true, not_eq_true', or_eq_true, beq_iff_eq] at begins
        split at found
        case isTrue =>
          obtain ⟨_, read, eq⟩ := Option.map_eq_some_iff.mp found
          cases eq
          have some_ : trimDots ((c :: rest).takeWhile fun x => isAsciiHexdigit x || x == ':' || x == '.') ≠ [] := fun none_ => by
            have unread : parseBareIpv6 [] = none := by decide +kernel
            rw [none_, unread] at read
            cases read
          obtain ⟨left, whole⟩ := (trimDots_front _).trans (List.takeWhile_prefix (p := fun x => isAsciiHexdigit x || x == ':' || x == '.') (l := c :: rest))
          obtain ⟨x, more, shape⟩ := exists_cons_of_ne_nil some_
          have head : x = c := by
            rw [shape] at whole
            exact (List.cons.inj whole).1
          exact ⟨c, more, left, whole.symm, by rw [shape, head], .inr begins⟩
        case isFalse => cases found
      case isFalse => cases found

theorem ipv6Loop_rewrites {fuel : Nat} (enough : rest.length ≤ fuel) (before : Text) :
    ∃ out, ipv6Loop fuel before.getLast? rest = some out ∧ Rewrites before rest out := by
  induction fuel generalizing before rest with
  | zero =>
    cases length_eq_zero_iff.mp (Nat.le_zero.mp enough)
    exact ⟨[], rfl, .done⟩
  | succ fuel ih =>
    cases rest with
    | nil => exact ⟨[], rfl, .done⟩
    | cons c rest =>
      unfold ipv6Loop
      cases found : ipv6Here before.getLast? (c :: rest) with
      | none =>
        obtain ⟨out, ran, rewrites⟩ := ih (Nat.le_of_succ_le_succ enough) (before ++ [c])
        rw [List.getLast?_concat] at ran
        exact ⟨c :: out, by simp only [ran, map_some], .copy rewrites⟩
      | some pair =>
        obtain ⟨addr, written⟩ := pair
        obtain ⟨x, more, left, whole, rfl, starts⟩ := ipv6Here_spec found
        have last : (x :: more).getLast?.or before.getLast? = (before ++ x :: more).getLast? := List.getLast?_append.symm
        have shorter : left.length ≤ fuel := by
          rw [whole, length_append, length_cons] at enough
          omega
        obtain ⟨out, ran, rewrites⟩ := ih shorter (before ++ x :: more)
        simp only [whole, drop_left, last, ran, map_some]
        refine ⟨_, rfl, ?_⟩
        split
        case isTrue => exact rewrites.copies (x :: more)
        case isFalse =>
          refine .cut ?_ addr_mark rewrites
          rcases starts with rfl | ⟨opens, inside⟩
          · exact spared_of_head (by decide) (by decide) _ _
          · exact spared_of_boundary opens inside

theorem scrubIpv6_clean (s : Text) : ∃ out, scrubIpv6 s = some out ∧ (Clean s → Clean out) := by
  obtain ⟨out, ran, rewrites⟩ := ipv6Loop_rewrites (Nat.le_refl s.length) []
  exact ⟨out, ran, rewrites.clean⟩

end
section
variable {s : Text}

/-- A name that starts neither in a redacted value nor at the separator behind it. -/
def Spares (id : Text) : Prop :=
  ∀ t tail, t <:+ redacted → (∀ c ∈ tail.head?, separator c = true) → ¬ id <+: t ++ tail

theorem Spares.spared {id : Text} (spares : Spares id) (before s : Text) : Spared before (id ++ s) := by
  intro p t _ _ tail whole ends
  by_contra short
  have front : t <+: redacted :=
    prefix_of_prefix_length_le ⟨id ++ s, whole⟩ (prefix_append redacted tail) (Nat.le_of_not_lt short)
  obtain ⟨more, eq⟩ := front
  rw [← eq, append_assoc, append_cancel_left_eq] at whole
  exact spares more tail ⟨t, eq⟩ ends ⟨s, whole⟩

theorem name_mark : Mark "<name>".toList := ⟨by decide, by decide⟩

theorem replaceAll_rewrites {id : Text} (some_ : id ≠ []) {fuel : Nat} (enough : s.length < fuel) (before : Text) :
    ∃ out, eachMark id (fun after => ("<name>".toList, some after)) fuel s = some out ∧
      (Spares id → Rewrites before s out) := by
  induction fuel generalizing before s with
  | zero => exact absurd enough (Nat.not_lt_zero _)
  | succ fuel ih =>
    unfold eachMark
    cases cut : splitOnText id s with
    | none => exact ⟨s, rfl, fun _ => .all before s⟩
    | some pair =>
      obtain ⟨front, after⟩ := pair
      obtain ⟨rfl, -⟩ := splitOnText_eq_some some_ cut
      have pos := length_pos_of_ne_nil some_
      simp only [length_append] at enough
      obtain ⟨out, ran, rewrites⟩ := ih (s := after) (by omega) (before ++ front ++ id)
      refine ⟨front ++ "<name>".toList ++ out, by simp only [ran, map_some], fun spares => ?_⟩
      have copied := (Rewrites.cut (spares.spared (before ++ front) after) name_mark (rewrites spares)).copies front
      simpa using copied

theorem scrubIdentities_clean (s : Text) (ids : List Text) : ∃ out, scrubIdentities s ids = some out ∧
    ((∀ id ∈ ids, minIdentity ≤ id.length → Spares id) → Clean s → Clean out) := by
  induction ids generalizing s with
  | nil => exact ⟨s, rfl, fun _ clean => clean⟩
  | cons id ids ih =>
    unfold scrubIdentities
    split
    case isTrue long =>
      have some_ : id ≠ [] := by
        rintro rfl
        exact absurd long (by decide)
      obtain ⟨mid, ran, rewrites⟩ := replaceAll_rewrites some_ (Nat.lt_succ_self s.length) []
      obtain ⟨out, ran_, kept⟩ := ih mid
      refine ⟨out, by rw [replaceAll, overMarks, ran]; exact ran_, fun spares clean => ?_⟩
      have later := fun x mem => spares x (mem_cons_of_mem id mem)
      exact kept later ((rewrites (spares id mem_cons_self long)).clean clean)
    case isFalse =>
      obtain ⟨out, ran, kept⟩ := ih s
      exact ⟨out, ran, fun spares => kept fun x mem => spares x (mem_cons_of_mem id mem)⟩

end
section

theorem redactTokens_total (m : Text) : ∃ out, redactTokens m = some out := by
  have shape : Mark redacted := ⟨by decide, by decide⟩
  have replaces (after : Text) : Replaces "X-Plex-Token=".toList after
      ("X-Plex-Token=".toList ++ redacted, some (after.drop (paramValue after).length)) := by
    have parts : after = paramValue after ++ [] ++ after.drop (paramValue after).length := by
      rw [append_nil]
      exact paramValue_append after
    exact .cut (paramValue after) [] _ redacted parts shape
  obtain ⟨out, ran, -⟩ := eachMark_rewrites (by decide) replaces (Nat.lt_succ_self m.length) []
  exact ⟨out, ran⟩

/-- The line as the pass over its parameters reads it. -/
def Handed (line s : Text) : Prop := ∃ t, redactTokens line = some t ∧ s = scrubHeaders t

/-- Every pass but the last has ended, whatever names the last one is given. -/
theorem passes_end (line : Text) : ∃ s t, Handed line s ∧ (∀ ids, scrubLocalWith line ids = scrubIdentities t ids) ∧
    (∀ ids, scrubWith line ids = (scrubIdentities t ids).map fun out => if stillLooksSecret out then .refuse else .keep out) ∧
    (Readable s → Clean t) := by
  obtain ⟨s₁, ran₁⟩ := redactTokens_total line
  obtain ⟨s₂, ran₂, clean₂⟩ := scrubParams_clean (scrubHeaders s₁)
  obtain ⟨s₃, ran₃, clean₃⟩ := scrubAuthority_clean s₂
  obtain ⟨s₄, ran₄, clean₄⟩ := scrubHostKv_clean s₃
  obtain ⟨s₅, ran₅, clean₅⟩ := scrubIpv6_clean s₄
  obtain ⟨s₆, ran₆, clean₆⟩ := scrubAddresses_clean s₅
  obtain ⟨s₇, ran₇, clean₇⟩ := scrubViewing_clean s₆
  refine ⟨scrubHeaders s₁, s₇, ⟨s₁, ran₁, rfl⟩, fun ids => ?_, fun ids => ?_, fun readable_ => ?_⟩
  · simp [scrubLocalWith, ran₁, ran₂, ran₃, ran₄, ran₅, ran₆, ran₇]
  · simp only [scrubWith, ran₁, ran₂, ran₃, ran₄, ran₅, ran₆, ran₇, bind_eq_bind, bind_some]
    cases scrubIdentities s₇ ids with
    | none => rfl
    | some out => cases secret : stillLooksSecret out <;> simp [secret]
  · exact clean₇ (clean₆ (clean₅ (clean₄ (clean₃ (clean₂.mpr readable_)))))

end

end PlxNative.Scrub
