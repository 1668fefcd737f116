import PlxNative.Lib.Json

/-! The compact text of a JSON tree, and how long its characters' escapes make it. -/
namespace PlxNative.Json
open List Value

def textSize (text : List Char) : Nat := (text.map Char.utf8Size).sum

def nibble (n : Nat) : Char := Char.ofNat (if n < 10 then 48 + n else 87 + n)

def escaped (c : Char) : List Char :=
  if c = '"' ∨ c = '\\' then ['\\', c]
  else if c = '\n' then ['\\', 'n']
  else if c = '\r' then ['\\', 'r']
  else if c = '\t' then ['\\', 't']
  else if c.toNat = 8 then ['\\', 'b']
  else if c.toNat = 12 then ['\\', 'f']
  else if c.toNat < 32 then ['\\', 'u', '0', '0', nibble (c.toNat / 16), nibble (c.toNat % 16)]
  else [c]

def quoted (s : String) : List Char := '"' :: (s.toList.flatMap escaped ++ ['"'])

/-- Without escapes. -/
def plainly (s : String) : List Char := '"' :: (s.toList ++ ['"'])

mutual
def Value.written (quote : String → List Char) : Value → List Char
  | .null => ['n', 'u', 'l', 'l']
  | .bool b => if b then ['t', 'r', 'u', 'e'] else ['f', 'a', 'l', 's', 'e']
  | .number text => text.toList
  | .string s => quote s
  | .array values => '[' :: ((valuesWritten quote values).drop 1 ++ [']'])
  | .object fields => '\x7b' :: ((fieldsWritten quote fields).drop 1 ++ ['\x7d'])

def valuesWritten (quote : String → List Char) : List Value → List Char
  | [] => []
  | value :: rest => ',' :: (value.written quote ++ valuesWritten quote rest)

def fieldsWritten (quote : String → List Char) : List (String × Value) → List Char
  | [] => []
  | (key, value) :: rest => ',' :: (quote key ++ (':' :: (value.written quote ++ fieldsWritten quote rest)))
end

def Value.compact (v : Value) : List Char := v.written quoted

section

@[simp] theorem textSize_nil : textSize [] = 0 := rfl

@[simp] theorem textSize_cons (c : Char) (text : List Char) : textSize (c :: text) = c.utf8Size + textSize text := by
  unfold textSize
  rw [map_cons, sum_cons]

@[simp] theorem textSize_append (text more : List Char) : textSize (text ++ more) = textSize text + textSize more := by
  unfold textSize
  rw [map_append, sum_append]

theorem nibble_size {n : Nat} (small : n < 16) : (nibble n).utf8Size = 1 := by
  decide +revert

theorem small_size {c : Char} (small : c.toNat < 128) : c.utf8Size = 1 := by
  rw [Char.utf8Size_eq_one_iff, UInt32.le_iff_toNat_le]
  exact Nat.le_of_lt_succ small

theorem escaped_size (c : Char) : textSize (escaped c) = escapedSize c := by
  by_cases quote : c = '"'
  · rw [quote]
    rfl
  by_cases slash : c = '\\'
  · rw [slash]
    rfl
  by_cases line : c = '\n'
  · rw [line]
    rfl
  by_cases back : c = '\r'
  · rw [back]
    rfl
  by_cases tab : c = '\t'
  · rw [tab]
    rfl
  unfold escaped escapedSize
  simp only [quote, slash, line, back, tab, or_self, if_false, false_or]
  by_cases eight : c.toNat = 8
  · rw [if_pos eight, if_pos (.inl eight)]
    rfl
  by_cases twelve : c.toNat = 12
  · rw [if_neg eight, if_pos twelve, if_pos (.inr twelve)]
    rfl
  rw [if_neg eight, if_neg twelve, if_neg (not_or.mpr ⟨eight, twelve⟩)]
  split
  · have first := nibble_size (n := c.toNat / 16) (by omega)
    have last := nibble_size (n := c.toNat % 16) (by omega)
    simp only [textSize_cons, textSize_nil, first, last]
    rfl
  · simp

theorem flatMap_size (text : List Char) : textSize (text.flatMap escaped) = (text.map escapedSize).sum := by
  induction text with
  | nil => rfl
  | cons c text ih => rw [flatMap_cons, textSize_append, escaped_size, ih, map_cons, sum_cons]

theorem quoted_size (s : String) : textSize (quoted s) = 2 + escapedLength s := by
  unfold quoted escapedLength
  simp only [textSize_cons, textSize_append, textSize_nil, flatMap_size]
  have quote : Char.utf8Size '"' = 1 := rfl
  omega

variable {text : List Char}

theorem drop_size {size members : Nat} (sized : textSize text = members + size)
    (comma : ∀ c ∈ text.head?, c.utf8Size = 1) (none_ : text = [] ↔ members = 0) :
    textSize (text.drop 1) = commas members + size := by
  unfold commas
  cases text with
  | nil =>
    have empty := none_.mp rfl
    rw [textSize_nil] at sized
    rw [drop_nil, textSize_nil]
    omega
  | cons c rest =>
    have one := comma c rfl
    have some_ : members ≠ 0 := fun empty => nomatch none_.mpr empty
    rw [textSize_cons] at sized
    rw [drop_succ_cons, drop_zero]
    omega

section
variable {quote : String → List Char} {content : String → Nat}

mutual
theorem written_size (sized : ∀ s, textSize (quote s) = 2 + content s) : ∀ v : Value, textSize (v.written quote) = v.sizeWith content
  | .null => rfl
  | .bool b => by cases b <;> rfl
  | .number text => rfl
  | .string s => sized s
  | .array values => by
    have inner := drop_size (valuesWritten_size sized values) (by cases values <;> simp [valuesWritten]; rfl)
      (by cases values <;> simp [valuesWritten])
    unfold Value.written sizeWith
    simp only [textSize_cons, textSize_append, textSize_nil, inner]
    have opens : Char.utf8Size '[' = 1 := rfl
    have closes : Char.utf8Size ']' = 1 := rfl
    omega
  | .object fields => by
    have inner := drop_size (fieldsWritten_size sized fields) (by cases fields <;> simp [fieldsWritten]; rfl)
      (by cases fields <;> simp [fieldsWritten])
    unfold Value.written sizeWith
    simp only [textSize_cons, textSize_append, textSize_nil, inner]
    have opens : Char.utf8Size '\x7b' = 1 := rfl
    have closes : Char.utf8Size '\x7d' = 1 := rfl
    omega

theorem valuesWritten_size (sized : ∀ s, textSize (quote s) = 2 + content s) : ∀ values : List Value,
    textSize (valuesWritten quote values) = values.length + valuesSize content values
  | [] => rfl
  | value :: rest => by
    unfold valuesWritten valuesSize
    simp only [textSize_cons, textSize_append, written_size sized value, valuesWritten_size sized rest, length_cons]
    have comma : Char.utf8Size ',' = 1 := rfl
    omega

theorem fieldsWritten_size (sized : ∀ s, textSize (quote s) = 2 + content s) : ∀ fields : List (String × Value),
    textSize (fieldsWritten quote fields) = fields.length + fieldsSize content fields
  | [] => rfl
  | (key, value) :: rest => by
    unfold fieldsWritten fieldsSize
    simp only [textSize_cons, textSize_append, written_size sized value, fieldsWritten_size sized rest, length_cons, sized]
    have comma : Char.utf8Size ',' = 1 := rfl
    have colon : Char.utf8Size ':' = 1 := rfl
    omega
end

mutual
variable {wider : String → Nat}

theorem sizeWith_mono (le : ∀ s, content s ≤ wider s) : ∀ v : Value, v.sizeWith content ≤ v.sizeWith wider
  | .null | .bool _ | .number _ => Nat.le_refl _
  | .string s => Nat.add_le_add_left (le s) 2
  | .array values => Nat.add_le_add_left (valuesSize_mono le values) _
  | .object fields => Nat.add_le_add_left (fieldsSize_mono le fields) _

theorem valuesSize_mono (le : ∀ s, content s ≤ wider s) : ∀ values : List Value,
    valuesSize content values ≤ valuesSize wider values
  | [] => Nat.le_refl _
  | value :: rest => Nat.add_le_add (sizeWith_mono le value) (valuesSize_mono le rest)

theorem fieldsSize_mono (le : ∀ s, content s ≤ wider s) : ∀ fields : List (String × Value),
    fieldsSize content fields ≤ fieldsSize wider fields
  | [] => Nat.le_refl _
  | (key, value) :: rest =>
    Nat.add_le_add (Nat.add_le_add (Nat.add_le_add_left (le key) 3) (sizeWith_mono le value)) (fieldsSize_mono le rest)
end

end

theorem compact_size (v : Value) : textSize v.compact = v.encodedSize := written_size quoted_size v

theorem plainly_size (s : String) : textSize (plainly s) = 2 + utf8Length s := by
  unfold plainly utf8Length
  simp only [textSize_cons, textSize_append, textSize_nil]
  have quote : Char.utf8Size '"' = 1 := rfl
  unfold textSize
  omega

/-- An escape is at least as long as the character it stands for. -/
theorem utf8Size_le (c : Char) : c.utf8Size ≤ escapedSize c := by
  by_cases low : c.toNat < 128
  · have one := small_size low
    unfold escapedSize
    split
    · omega
    · split <;> omega
  · have apart : ¬(c = '"' ∨ c = '\\' ∨ c = '\n' ∨ c = '\r' ∨ c = '\t' ∨ c.toNat = 8 ∨ c.toNat = 12) := by
      rintro (rfl | rfl | rfl | rfl | rfl | eq | eq)
      all_goals first | exact low (by decide) | omega
    have plain : escapedSize c = c.utf8Size := by
      unfold escapedSize
      rw [if_neg apart, if_neg (by omega)]
    exact Nat.le_of_eq plain.symm

theorem utf8Length_le (s : String) : utf8Length s ≤ escapedLength s := by
  unfold utf8Length escapedLength
  induction s.toList with
  | nil => exact Nat.le_refl _
  | cons c text ih =>
    rw [map_cons, map_cons, sum_cons, sum_cons]
    exact Nat.add_le_add (utf8Size_le c) ih

theorem escapedSize_le (c : Char) : escapedSize c ≤ 6 * c.utf8Size := by
  have pos := Char.utf8Size_pos c
  unfold escapedSize
  split
  · omega
  · split <;> omega

theorem escapedSize_le_double {c : Char} (printed : ¬ c.toNat < 32) : escapedSize c ≤ 2 * c.utf8Size := by
  have pos := Char.utf8Size_pos c
  unfold escapedSize
  rw [if_neg printed]
  split <;> omega

theorem sum_le {weight : Char → Nat} {k : Nat} (each : ∀ c ∈ text, weight c ≤ k * c.utf8Size) :
    (text.map weight).sum ≤ k * textSize text := by
  induction text with
  | nil => exact Nat.zero_le _
  | cons c text ih =>
    have here := each c mem_cons_self
    have rest := ih fun c mem => each c (mem_cons_of_mem _ mem)
    rw [map_cons, sum_cons, textSize_cons, Nat.mul_add]
    exact Nat.add_le_add here rest

theorem escapedLength_le (s : String) : escapedLength s ≤ 6 * textSize s.toList := sum_le fun c _ => escapedSize_le c

theorem escapedLength_le_double {s : String} (printed : ∀ c ∈ s.toList, ¬ c.toNat < 32) : escapedLength s ≤ 2 * textSize s.toList :=
  sum_le fun c mem => escapedSize_le_double (printed c mem)

end
end PlxNative.Json
