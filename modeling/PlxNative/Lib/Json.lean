import Mathlib.Algebra.Ring.Nat
import Mathlib.Data.List.Basic

/-! JSON trees, with objects as their fields in the order of their keys, and the length of
their compact encoding. -/
namespace PlxNative.Json

inductive Value where
  | null
  | bool (b : Bool)
  | number (text : String)
  | string (s : String)
  | array (values : List Value)
  | object (fields : List (String × Value))

mutual
def Value.decEq : (a b : Value) → Decidable (a = b)
  | .null, .null => .isTrue rfl
  | .bool a, .bool b => if same : a = b then .isTrue (by rw [same]) else .isFalse (by simp [same])
  | .number a, .number b => if same : a = b then .isTrue (by rw [same]) else .isFalse (by simp [same])
  | .string a, .string b => if same : a = b then .isTrue (by rw [same]) else .isFalse (by simp [same])
  | .array as, .array bs => match decEqValues as bs with
    | .isTrue same => .isTrue (by rw [same])
    | .isFalse other => .isFalse (by simp [other])
  | .object as, .object bs => match decEqFields as bs with
    | .isTrue same => .isTrue (by rw [same])
    | .isFalse other => .isFalse (by simp [other])
  | .null, .bool _ | .null, .number _ | .null, .string _ | .null, .array _ | .null, .object _
  | .bool _, .null | .bool _, .number _ | .bool _, .string _ | .bool _, .array _ | .bool _, .object _
  | .number _, .null | .number _, .bool _ | .number _, .string _ | .number _, .array _ | .number _, .object _
  | .string _, .null | .string _, .bool _ | .string _, .number _ | .string _, .array _ | .string _, .object _
  | .array _, .null | .array _, .bool _ | .array _, .number _ | .array _, .string _ | .array _, .object _
  | .object _, .null | .object _, .bool _ | .object _, .number _ | .object _, .string _ | .object _, .array _ =>
    .isFalse nofun

def decEqValues : (as bs : List Value) → Decidable (as = bs)
  | [], [] => .isTrue rfl
  | [], _ :: _ | _ :: _, [] => .isFalse nofun
  | a :: as, b :: bs => match Value.decEq a b, decEqValues as bs with
    | .isTrue head, .isTrue tail => .isTrue (by rw [head, tail])
    | .isFalse other, _ => .isFalse (by simp [other])
    | _, .isFalse other => .isFalse (by simp [other])

def decEqFields : (as bs : List (String × Value)) → Decidable (as = bs)
  | [], [] => .isTrue rfl
  | [], _ :: _ | _ :: _, [] => .isFalse nofun
  | (k, a) :: as, (l, b) :: bs => if same : k = l then
      match Value.decEq a b, decEqFields as bs with
      | .isTrue head, .isTrue tail => .isTrue (by rw [same, head, tail])
      | .isFalse other, _ => .isFalse (by simp [other])
      | _, .isFalse other => .isFalse (by simp [other])
    else .isFalse (by simp [same])
end

instance : DecidableEq Value := Value.decEq

/-- Bytes of a string's content, before any escape. -/
def utf8Length (s : String) : Nat := (s.toList.map Char.utf8Size).sum

/-- Bytes of a character inside quotes: quotes, backslashes and control characters are
escaped, the latter by a letter where there is one. -/
def escapedSize (c : Char) : Nat :=
  if c = '"' ∨ c = '\\' ∨ c = '\n' ∨ c = '\r' ∨ c = '\t' ∨ c.toNat = 8 ∨ c.toNat = 12 then 2
  else if c.toNat < 32 then 6
  else c.utf8Size

def escapedLength (s : String) : Nat := (s.toList.map escapedSize).sum

def commas (members : Nat) : Nat := members - 1

mutual
/-- The size of a tree, given that of a string's content. -/
def Value.sizeWith (content : String → Nat) : Value → Nat
  | .null => 4
  | .bool b => if b then 4 else 5
  | .number text => utf8Length text
  | .string s => 2 + content s
  | .array values => 2 + commas values.length + valuesSize content values
  | .object fields => 2 + commas fields.length + fieldsSize content fields

def valuesSize (content : String → Nat) : List Value → Nat
  | [] => 0
  | value :: rest => value.sizeWith content + valuesSize content rest

def fieldsSize (content : String → Nat) : List (String × Value) → Nat
  | [] => 0
  | (key, value) :: rest => 3 + content key + value.sizeWith content + fieldsSize content rest
end

def Value.encodedSize (v : Value) : Nat := v.sizeWith escapedLength

def Value.isNull : Value → Bool
  | .null => true
  | _ => false

def remove (key : String) (fields : List (String × Value)) : List (String × Value) :=
  fields.filter (fun field => field.1 ≠ key)

def HasKey (key : String) (fields : List (String × Value)) : Prop := ∃ field ∈ fields, field.1 = key

instance (key : String) (fields : List (String × Value)) : Decidable (HasKey key fields) :=
  inferInstanceAs (Decidable (∃ field ∈ fields, field.1 = key))

theorem not_hasKey_remove (key : String) (fields : List (String × Value)) : ¬ HasKey key (remove key fields) := by
  rintro ⟨field, mem, eq⟩
  have other := (List.mem_filter.mp mem).2
  rw [decide_eq_true_eq] at other
  exact other eq

theorem HasKey.of_remove {key other : String} {fields : List (String × Value)} (held : HasKey key (remove other fields)) :
    HasKey key fields := by
  obtain ⟨field, mem, eq⟩ := held
  exact ⟨field, (List.mem_filter.mp mem).1, eq⟩

/-- The fields of an object, when the tree is one. -/
def Value.fields? : Value → Option (List (String × Value))
  | .object fields => some fields
  | _ => none

/-- A member of an object, or null where there is none. -/
def Value.member (key : String) (v : Value) : Value :=
  (((v.fields?.getD []).find? (fun field => field.1 = key)).map Prod.snd).getD .null

def Value.text? : Value → Option String
  | .string s => some s
  | _ => none

end PlxNative.Json
