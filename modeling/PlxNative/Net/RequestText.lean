import PlxNative.Net.Redirect

/-! What a caller's header block may hold, exactly, and the text of a request it is spliced into:
a block that passes adds its own lines and ends nothing. -/
namespace PlxNative.Net
open List Text Checks
attribute [local instance (high)] List.decidableBAll

def crlf : Text := ['\x0d', '\n']

def Plain (s : Text) : Prop := '\x0d' ∉ s ∧ '\n' ∉ s

/-- What a line of a caller's block must be. -/
structure Permitted (line : Text) : Prop where
  some_ : line ≠ []
  plain : Plain line
  unterminated : '\x00' ∉ line
  named : ∃ name value, line = name ++ ':' :: value ∧ ':' ∉ name ∧ name ≠ [] ∧ (∀ c ∈ name, isTokenChar c = true) ∧
    ∀ r ∈ reserved, eqIgnoreAsciiCase name r = false

/-- The installed name of the process, which holds no control character. -/
structure UserAgent where
  text : Text
  plain : ∀ c ∈ text, ¬(c.toNat < 32 ∨ 127 ≤ c.toNat ∧ c.toNat < 160)

def UserAgent.new (text : Text) : Option UserAgent :=
  if plain : ∀ c ∈ text, ¬(c.toNat < 32 ∨ 127 ≤ c.toNat ∧ c.toNat < 160) then some ⟨text, plain⟩ else none

def userAgentHeaderLine (installed : Option UserAgent) : Text :=
  (installed.map (fun ua => "User-Agent: ".toList ++ ua.text ++ crlf)).getD []

def requestLine (method path : Text) : Text := method ++ [' '] ++ path ++ " HTTP/1.1".toList

def hostLine (host : Text) (port : Int) : Text := "Host: ".toList ++ hostHeader host port

/-- The text of a request, with the default `Accept` unless the caller names one. -/
def requestText (installed : Option UserAgent) (method host : Text) (port : Int) (path extra : Text) (callerAccept : Bool) : Text :=
  let accept := if callerAccept then [] else "Accept: */*".toList ++ crlf
  requestLine method path ++ crlf ++ hostLine host port ++ crlf ++ userAgentHeaderLine installed ++ accept ++ extra ++ crlf

/-- The caller's block is checked before the request's text is made. -/
def requestOf (installed : Option UserAgent) (method host : Text) (port : Int) (path extra : Text) : Except Refusal Text := do
  let lines ← checkWireBlock extra
  return requestText installed method host port path extra (namesHeader lines "accept".toList)

section
variable {s a b line block : Text} {lines : List Text}

theorem crlfLines_ne_nil (s : Text) : crlfLines s ≠ [] := by
  induction s using crlfLines.induct with
  | case1 => exact cons_ne_nil _ _
  | case2 rest ih => exact cons_ne_nil _ _
  | case3 c rest other ih =>
    rw [crlfLines]
    · cases shape : crlfLines rest with
      | nil => exact absurd shape ih
      | cons first more => exact cons_ne_nil _ _
    · exact other

theorem crlfLines_append (a b : Text) : crlfLines (a ++ crlf ++ b) = crlfLines a ++ crlfLines b := by
  induction a using crlfLines.induct with
  | case1 => rfl
  | case2 rest ih =>
    change [] :: crlfLines (rest ++ crlf ++ b) = [] :: crlfLines rest ++ crlfLines b
    rw [ih, cons_append]
  | case3 c rest other ih =>
    have apart : ∀ more, c = '\x0d' → rest ++ crlf ++ b = '\n' :: more → False := by
      intro more eq shape
      cases rest with
      | nil => cases shape
      | cons first others =>
        obtain ⟨rfl, -⟩ := List.cons.inj shape
        exact other others eq rfl
    have front : ∀ more : List Text, more ≠ [] → (more ++ crlfLines b).modifyHead (c :: ·) = more.modifyHead (c :: ·) ++ crlfLines b := by
      intro more some_
      cases more with
      | nil => exact absurd rfl some_
      | cons first others => rfl
    rw [crlfLines.eq_3 c rest other, ← front _ (crlfLines_ne_nil rest), ← ih]
    exact crlfLines.eq_3 c _ apart

theorem crlfLines_plain (plain : Plain s) : crlfLines s = [s] := by
  induction s with
  | nil => rfl
  | cons c rest ih =>
    have others : Plain rest := ⟨fun mem => plain.1 (mem_cons_of_mem _ mem), fun mem => plain.2 (mem_cons_of_mem _ mem)⟩
    have first : ∀ more, c = '\x0d' → rest = '\n' :: more → False := by
      intro more eq _
      exact plain.1 (eq ▸ mem_cons_self ..)
    rw [crlfLines.eq_3 c rest first, ih others]
    rfl

theorem crlfLines_joined (s : Text) : (crlfLines s).flatMap (· ++ crlf) = s ++ crlf := by
  induction s using crlfLines.induct with
  | case1 => rfl
  | case2 rest ih =>
    change crlf ++ (crlfLines rest).flatMap (· ++ crlf) = _
    rw [ih]
    rfl
  | case3 c rest other ih =>
    rw [crlfLines.eq_3 c rest other]
    cases shape : crlfLines rest with
    | nil => exact absurd shape (crlfLines_ne_nil rest)
    | cons first more =>
      rw [shape] at ih
      change c :: (first ++ crlf ++ more.flatMap (· ++ crlf)) = _
      rw [flatMap_cons] at ih
      rw [ih, cons_append]

theorem crlfLines_lines (plain : ∀ line ∈ lines, Plain line) (rest : Text) :
    crlfLines (lines.flatMap (· ++ crlf) ++ rest) = lines ++ crlfLines rest := by
  induction lines with
  | nil => rfl
  | cons line more ih =>
    obtain ⟨first, others⟩ := forall_mem_cons.mp plain
    rw [flatMap_cons, append_assoc, crlfLines_append, crlfLines_plain first, ih others]
    rfl

theorem stripSuffix_eq_some {mark rest : Text} : stripSuffix mark s = some rest ↔ s = rest ++ mark := by
  unfold stripSuffix
  constructor
  · intro cut
    split at cut
    · rename_i ends
      obtain ⟨front, rfl⟩ := isSuffixOf_iff_suffix.mp ends
      rw [length_append, Nat.add_sub_cancel, take_left'] at cut
      · rw [Option.some.inj cut]
      · rfl
    · cases cut
  · rintro rfl
    rw [if_pos (isSuffixOf_iff_suffix.mpr (suffix_append _ _)), length_append, Nat.add_sub_cancel, take_left']
    rfl

theorem nameOf_eq_ok {name : Text} : nameOf line = .ok name ↔
    line ≠ [] ∧ Plain line ∧ '\x00' ∉ line ∧ (∃ value, line = name ++ ':' :: value ∧ ':' ∉ name) ∧ name ≠ [] ∧
      ∀ c ∈ name, isTokenChar c = true := by
  have plain : (¬line.any (fun c => c == '\x0d' || c == '\n' || c == '\x00') = true) ↔ Plain line ∧ '\x00' ∉ line := by
    simp only [any_eq_true, Bool.or_eq_true, beq_iff_eq, not_exists, not_and, not_or, Plain]
    constructor
    · intro each
      exact ⟨⟨fun mem => (each _ mem).1.1 rfl, fun mem => (each _ mem).1.2 rfl⟩, fun mem => (each _ mem).2 rfl⟩
    · rintro ⟨⟨first, second⟩, third⟩ c mem
      exact ⟨⟨fun eq => first (eq ▸ mem), fun eq => second (eq ▸ mem)⟩, fun eq => third (eq ▸ mem)⟩
  unfold nameOf
  rw [then_eq_ok, check_eq_ok, then_eq_ok, check_eq_ok, plain]
  cases cut : splitOnce ':' line with
  | none =>
    have absent := splitOnce_eq_none.mp cut
    simp only [reduceCtorEq, and_false, false_iff]
    rintro ⟨-, -, -, ⟨value, shape, -⟩, -⟩
    exact absent (shape ▸ mem_append_right _ (mem_cons_self ..))
  | some pair =>
    obtain ⟨found, value⟩ := pair
    obtain ⟨shape, apart⟩ := splitOnce_eq_some.mp cut
    simp only
    rw [then_eq_ok, check_eq_ok, all_eq_true]
    constructor
    · rintro ⟨some_, ⟨plain_, unterminated⟩, ⟨named, token⟩, is⟩
      obtain rfl : found = name := Except.ok.inj is
      exact ⟨some_, plain_, unterminated, ⟨value, shape, apart⟩, named, token⟩
    · rintro ⟨some_, plain_, unterminated, ⟨other, again, absent⟩, named, token⟩
      have eq := cut.symm.trans (splitOnce_eq_some.mpr ⟨again, absent⟩)
      obtain ⟨rfl, -⟩ := Prod.mk.injEq .. ▸ Option.some.inj eq
      exact ⟨some_, ⟨plain_, unterminated⟩, ⟨named, token⟩, rfl⟩

theorem checkLine_eq_ok : checkLine line = .ok () ↔ Permitted line := by
  unfold checkLine
  rw [seq_eq_ok]
  constructor
  · rintro ⟨name, named, free⟩
    obtain ⟨some_, plain, unterminated, ⟨value, shape, apart⟩, nonempty, token⟩ := nameOf_eq_ok.mp named
    rw [check_eq_ok, any_eq_true, not_exists] at free
    refine ⟨some_, plain, unterminated, name, value, shape, apart, nonempty, token, ?_⟩
    intro r mem
    have other := free r
    rw [not_and, Bool.not_eq_true] at other
    exact other mem
  · rintro ⟨some_, plain, unterminated, name, value, shape, apart, nonempty, token, free⟩
    refine ⟨name, nameOf_eq_ok.mpr ⟨some_, plain, unterminated, ⟨value, shape, apart⟩, nonempty, token⟩, check_eq_ok.mpr ?_⟩
    rw [any_eq_true]
    rintro ⟨r, mem, eq⟩
    rw [free r mem] at eq
    cases eq

theorem checkBlock_eq_ok : checkBlock lines = .ok () ↔ ∀ line ∈ lines, Permitted line := by
  induction lines with
  | nil => simp [checkBlock]
  | cons line rest ih =>
    rw [checkBlock, then_eq_ok, checkLine_eq_ok, ih, forall_mem_cons]

theorem checkWireBlock_eq_ok : checkWireBlock block = .ok lines ↔
    block = lines.flatMap (· ++ crlf) ∧ ∀ line ∈ lines, Permitted line := by
  unfold checkWireBlock
  by_cases empty : block = []
  · rw [if_pos empty]
    constructor
    · intro is
      obtain rfl : [] = lines := Except.ok.inj is
      exact ⟨empty, fun line mem => absurd mem not_mem_nil⟩
    · rintro ⟨shape, -⟩
      cases lines with
      | nil => rfl
      | cons line rest =>
        rw [empty, flatMap_cons] at shape
        have nothing := (append_eq_nil_iff.mp (append_eq_nil_iff.mp shape.symm).1).2
        cases nothing
  · rw [if_neg empty]
    cases cut : stripSuffix ['\x0d', '\n'] block with
    | none =>
      simp only [reduceCtorEq, false_iff]
      rintro ⟨shape, -⟩
      rcases eq_nil_or_concat lines with rfl | ⟨front, last, rfl⟩
      · exact empty shape
      · rw [concat_eq_append, flatMap_append, flatMap_singleton, ← append_assoc] at shape
        have some_ := stripSuffix_eq_some.mpr shape
        change stripSuffix crlf block = none at cut
        rw [cut] at some_
        cases some_
    | some body =>
      have shape : block = body ++ crlf := stripSuffix_eq_some.mp cut
      simp only
      rw [then_eq_ok, checkBlock_eq_ok]
      constructor
      · rintro ⟨permitted, is⟩
        obtain rfl : crlfLines body = lines := Except.ok.inj is
        exact ⟨shape.trans (crlfLines_joined body).symm, permitted⟩
      · rintro ⟨joined, permitted⟩
        have left : crlfLines block = crlfLines body ++ [[]] := by
          have cutOff := crlfLines_append body []
          rw [append_nil, ← shape] at cutOff
          exact cutOff
        have right : crlfLines block = lines ++ [[]] := by
          have cutOff := crlfLines_lines (fun line mem => (permitted line mem).plain) []
          rw [append_nil, ← joined] at cutOff
          exact cutOff
        have eq : crlfLines body = lines := append_cancel_right (left.symm.trans right)
        rw [eq]
        exact ⟨permitted, rfl⟩

end
section
variable {a b host method path : Text}

theorem Plain.append (first : Plain a) (second : Plain b) : Plain (a ++ b) :=
  ⟨fun mem => (mem_append.mp mem).elim first.1 second.1, fun mem => (mem_append.mp mem).elim first.2 second.2⟩

theorem Plain.subset (plain : Plain a) (fewer : b ⊆ a) : Plain b := ⟨fun mem => plain.1 (fewer mem), fun mem => plain.2 (fewer mem)⟩

theorem toString_plain (n : Nat) : Plain (toString n).toList := by
  have digits : ∀ c ∈ (toString n).toList, c.isDigit = true := by
    intro c mem
    change c ∈ (String.ofList (Nat.toDigits 10 n)).toList at mem
    rw [String.toList_ofList] at mem
    exact Nat.isDigit_of_mem_toDigits (by decide) (by decide) mem
  exact ⟨fun mem => absurd (digits _ mem) (by decide), fun mem => absurd (digits _ mem) (by decide)⟩

theorem toString_int_plain (port : Int) : Plain (toString port).toList := by
  cases port with
  | ofNat n => exact toString_plain n
  | negSucc n =>
    have shape : (toString (Int.negSucc n)).toList = '-' :: (toString (n + 1)).toList := by
      change ("-" ++ toString (n + 1)).toList = _
      rw [String.toList_append]
      rfl
    rw [shape]
    exact Plain.append (a := ['-']) ⟨by decide, by decide⟩ (toString_plain (n + 1))

theorem resolverNode_subset (host : Text) : resolverNode host ⊆ host := by
  unfold resolverNode
  cases cut : stripPrefix ['['] host with
  | none => exact List.Subset.refl _
  | some rest =>
    have inside : rest ⊆ host := by
      unfold stripPrefix at cut
      split at cut
      · obtain rfl := Option.some.inj cut
        exact drop_subset _ _
      · cases cut
    simp only
    cases again : stripSuffix [']'] rest with
    | none => exact inside
    | some bare =>
      obtain rfl := stripSuffix_eq_some.mp again
      exact List.Subset.trans (subset_append_left _ _) inside

theorem hostLine_plain (plain : Plain host) (port : Int) : Plain (hostLine host port) := by
  have bare := plain.subset (resolverNode_subset host)
  have name : Plain "Host: ".toList := ⟨by decide, by decide⟩
  apply name.append
  unfold hostHeader
  by_cases literal : ':' ∈ resolverNode host
  · simp only [if_pos literal]
    have opens : Plain ['['] := ⟨by decide, by decide⟩
    have closes : Plain "]:".toList := ⟨by decide, by decide⟩
    exact ((opens.append bare).append closes).append (toString_int_plain port)
  · simp only [if_neg literal]
    have colon : Plain [':'] := ⟨by decide, by decide⟩
    exact bare.append (colon.append (toString_int_plain port))

theorem requestLine_plain (first : Plain method) (second : Plain path) : Plain (requestLine method path) := by
  have space : Plain [' '] := ⟨by decide, by decide⟩
  have version : Plain " HTTP/1.1".toList := ⟨by decide, by decide⟩
  exact ((first.append space).append second).append version

theorem UserAgent.line_plain (ua : UserAgent) : Plain ("User-Agent: ".toList ++ ua.text) := by
  have name : Plain "User-Agent: ".toList := ⟨by decide, by decide⟩
  exact name.append ⟨fun mem => ua.plain _ mem (.inl (by decide)), fun mem => ua.plain _ mem (.inl (by decide))⟩

/-- The lines the transport writes of itself: its name, when one is installed, and its `Accept`. -/
def userAgentLines (installed : Option UserAgent) : List Text := (installed.map (fun ua => "User-Agent: ".toList ++ ua.text)).toList

def acceptLines (lines : List Text) : List Text := if namesHeader lines "accept".toList then [] else ["Accept: */*".toList]

theorem requestText_lines (installed : Option UserAgent) (method host : Text) (port : Int) (path : Text) {lines : List Text}
    (plain : ∀ line ∈ lines, Plain line) :
    crlfLines (requestText installed method host port path (lines.flatMap (· ++ crlf)) (namesHeader lines "accept".toList)) =
      crlfLines (requestLine method path) ++ crlfLines (hostLine host port) ++ userAgentLines installed ++ acceptLines lines ++
        lines ++ [[], []] := by
  have own : userAgentHeaderLine installed = (userAgentLines installed).flatMap (· ++ crlf) := by
    cases installed <;> simp [userAgentHeaderLine, userAgentLines]
  have accept : (if namesHeader lines "accept".toList then [] else "Accept: */*".toList ++ crlf) =
      (acceptLines lines).flatMap (· ++ crlf) := by
    unfold acceptLines
    split <;> rfl
  have ownPlain : ∀ line ∈ userAgentLines installed, Plain line := by
    intro line mem
    cases installed with
    | none => cases mem
    | some ua =>
      rw [mem_singleton.mp mem]
      exact ua.line_plain
  have acceptPlain : ∀ line ∈ acceptLines lines, Plain line := by
    intro line mem
    unfold acceptLines at mem
    split at mem
    · cases mem
    · rw [mem_singleton.mp mem]
      exact ⟨by decide, by decide⟩
  have shape : requestText installed method host port path (lines.flatMap (· ++ crlf)) (namesHeader lines "accept".toList) =
      requestLine method path ++ crlf ++ hostLine host port ++ crlf ++ userAgentHeaderLine installed ++
        (if namesHeader lines "accept".toList then [] else "Accept: */*".toList ++ crlf) ++ lines.flatMap (· ++ crlf) ++ crlf := rfl
  rw [shape, own, accept]
  simp only [append_assoc]
  rw [← append_assoc (requestLine method path), crlfLines_append, ← append_assoc (hostLine host port), crlfLines_append,
    crlfLines_lines ownPlain, crlfLines_lines acceptPlain, crlfLines_lines plain]
  rfl

end

/-- A caller's block is accepted exactly when it is permitted lines, each ended; spliced into a
request it adds those lines and nothing else, whatever the rest of the request is. -/
theorem accepted_blocks_add_only_lines :
    (∀ block lines, checkWireBlock block = .ok lines ↔
      block = lines.flatMap (· ++ crlf) ∧ ∀ line ∈ lines, Permitted line) ∧
    (∀ installed method host port path block lines, checkWireBlock block = .ok lines →
      ∃ text, requestOf installed method host port path block = .ok text ∧
        crlfLines text = crlfLines (requestLine method path) ++ crlfLines (hostLine host port) ++ userAgentLines installed ++
          acceptLines lines ++ lines ++ [[], []]) ∧
    (∀ method path, Plain method → Plain path → crlfLines (requestLine method path) = [requestLine method path]) ∧
    ∀ host port, Plain host → crlfLines (hostLine host port) = [hostLine host port] := by
  refine ⟨fun block lines => checkWireBlock_eq_ok, ?_, fun method path first second => crlfLines_plain (requestLine_plain first second),
    fun host port plain => crlfLines_plain (hostLine_plain plain port)⟩
  intro installed method host port path block lines accepted
  obtain ⟨joined, permitted⟩ := checkWireBlock_eq_ok.mp accepted
  refine ⟨requestText installed method host port path block (namesHeader lines "accept".toList), ?_, ?_⟩
  · rw [requestOf, accepted]
    rfl
  · rw [joined]
    exact requestText_lines installed method host port path (fun line member => (permitted line member).plain)

end PlxNative.Net
