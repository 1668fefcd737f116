import Mathlib.Data.String.Basic
import PlxNative.Hud.Address
import PlxNative.Hud.Package
import PlxNative.Lib.Json

/-! `installed.json`: what a candidate directory has installed, as it is written and as it is
read back. -/
namespace PlxNative.Hud
open Option
open Json (Value)

/-- What the store computes with and does not define: SHA-256, and JSON as bytes. A tree
read from bytes has the fields of an object as they stood, repeated ones too. -/
class World where
  sha256 : Bytes → Sha
  fromSlice : Bytes → Option Value
  toBytes : Value → Bytes

def Sha.of [World] (bytes : Bytes) : Sha := World.sha256 bytes

structure Record where
  sha : Sha
  source : Source
  at_ : Nat
  packageFormat : String
  hudFormat : String
  from_ : Option Address
deriving DecidableEq

namespace Record

def new (sha : Sha) (source : Source) (at_ : Nat) (packageFormat hudFormat : String) : Record :=
  { sha := sha, source := source, at_ := at_, packageFormat := packageFormat, hudFormat := hudFormat, from_ := none }

/-- With the development source it came from, where a record of its source may carry one. -/
def fromDevSource (r : Record) (from_ : Option Address) : Record :=
  { r with from_ := from_.filter (fun address => r.source = .address && address.devSource) }

end Record

abbrev Index : Type := SortedMap String Record

/-- Whether the store may rewrite a candidate's index. -/
inductive Access where
  | writable
  | readOnly
deriving DecidableEq

structure Dir where
  index : Index
  access : Access
deriving DecidableEq

def Dir.empty : Dir := ⟨SortedMap.empty, .writable⟩

def Dir.readOnly : Dir := ⟨SortedMap.empty, .readOnly⟩

/-- Whether a record of the index names the package. -/
def Index.Names (index : Index) (sha : Sha) : Prop := ∃ id r, index.lookup id = some r ∧ r.sha = sha

def Index.names (index : Index) (sha : Sha) : Bool := index.values.any (fun r => r.sha = sha)

theorem Index.names_iff {index : Index} {sha : Sha} : Index.names index sha = true ↔ Index.Names index sha := by
  simp only [names, List.any_eq_true, decide_eq_true_eq, SortedMap.mem_values]
  exact ⟨fun ⟨r, ⟨id, held⟩, eq⟩ => ⟨id, r, held, eq⟩, fun ⟨id, r, held, eq⟩ => ⟨r, ⟨id, held⟩, eq⟩⟩

section

structure IndexRecord where
  sha : String
  source : Source
  at_ : Nat
  packageFormat : String
  hudFormat : String
  from_ : Option String

structure IndexFile where
  v : Nat
  packs : List (String × IndexRecord)

/-- A record's fields: none unknown and none repeated. -/
def wellKeyed (known : List String) (fields : List (String × Value)) : Bool :=
  fields.all (fun field => known.contains field.1) && decide (fields.map Prod.fst).Nodup

def field (name : String) (fields : List (String × Value)) : Option Value := fields.lookup name

def stringField (name : String) (fields : List (String × Value)) : Option String :=
  (field name fields).bind Value.text?

def numberField (name : String) (fields : List (String × Value)) : Option Nat :=
  match field name fields with
  | some (.number text) => Usize.parseU64 text
  | _ => none

/-- An optional text: absent and null are none of it. -/
def optionalField (name : String) (fields : List (String × Value)) : Option (Option String) :=
  match field name fields with
  | none | some .null => some none
  | some (.string s) => some (some s)
  | some _ => none

def sourceNamed : String → Option Source
  | "drop" => some .drop
  | "address" => some .address
  | "registry" => some .registry
  | _ => none

/-- A variant is its name, alone or as the one field of an object. -/
def sourceOf : Value → Option Source
  | .string name => sourceNamed name
  | .object [(name, .null)] => sourceNamed name
  | _ => none

def indexRecord (v : Value) : Option IndexRecord := do
  let fields ← v.fields?
  if wellKeyed ["sha", "source", "at", "package_format", "hud_format", "from"] fields then
    let sha ← stringField "sha" fields
    let source ← (field "source" fields).bind sourceOf
    let at_ ← numberField "at" fields
    let packageFormat ← stringField "package_format" fields
    let hudFormat ← stringField "hud_format" fields
    let from_ ← optionalField "from" fields
    return { sha, source, at_, packageFormat, hudFormat, from_ }
  else none

/-- The records under their ids, no id twice. -/
def indexRecords (v : Value) : Option (List (String × IndexRecord)) := do
  let fields ← v.fields?
  if (fields.map Prod.fst).Nodup then fields.mapM (fun entry => (indexRecord entry.2).map (fun r => (entry.1, r)))
  else none

def indexFileOf (v : Value) : Option IndexFile := do
  let fields ← v.fields?
  if wellKeyed ["v", "packs"] fields then
    let v ← numberField "v" fields
    let packs ← (field "packs" fields).bind indexRecords
    return { v, packs }
  else none

/-- The record this build keeps of one it read. -/
def recordOf (id : String) (r : IndexRecord) : Option Record :=
  if id = builtinClassic ∨ validPackageId id = false ∨ r.packageFormat ≠ "1.0" ∨ r.hudFormat ≠ "1.0" then none
  else (Sha.parse r.sha).map (fun sha =>
    (Record.new sha r.source r.at_ r.packageFormat r.hudFormat).fromDevSource
      (r.from_.bind (fun text => (Address.parse text).toOption)))

def readRecords : List (String × IndexRecord) → Option Index
  | [] => some SortedMap.empty
  | (id, r) :: rest => do
      let index ← readRecords rest
      let record ← recordOf id r
      return index.insert id record

def indexFormat : Nat := 1

def indexOf (v : Value) : Option Index := do
  let file ← indexFileOf v
  if file.v = indexFormat then readRecords file.packs else none

/-- An index that cannot be read whole is read-only whole. -/
def parseIndex [World] (bytes : Bytes) : Dir :=
  match (World.fromSlice bytes).bind indexOf with
  | some index => ⟨index, .writable⟩
  | none => .readOnly

end

section

def recordValue (r : Record) : Value :=
  .object ([("at", .number (toString r.at_))] ++
    (match r.from_ with
      | some address => [("from", .string address.url)]
      | none => []) ++
    [("hud_format", .string r.hudFormat), ("package_format", .string r.packageFormat),
      ("sha", .string r.sha.hex), ("source", .string r.source.asStr)])

def indexValue (index : Index) : Value :=
  .object [("packs", .object (index.entries.map (fun e => (e.1, recordValue e.2)))), ("v", .number (toString indexFormat))]

def indexBytes [World] (index : Index) : Bytes := World.toBytes (indexValue index)

end

section

def emptySha : Sha :=
  ⟨[0xe3, 0xb0, 0xc4, 0x42, 0x98, 0xfc, 0x1c, 0x14, 0x9a, 0xfb, 0xf4, 0xc8, 0x99, 0x6f, 0xb9, 0x24,
    0x27, 0xae, 0x41, 0xe4, 0x64, 0x9b, 0x93, 0x4c, 0xa4, 0x95, 0x99, 0x1b, 0x78, 0x52, 0xb8, 0x55], rfl⟩

/-- A world as far as it is needed for runs over the empty package and one JSON text. -/
@[reducible] def sampleWorld (known : Value) (text : Bytes) : World where
  sha256 bytes := if bytes = [] then emptySha else ⟨List.replicate 32 0, rfl⟩
  fromSlice bytes := if bytes = text then some known else none
  toBytes v := if v = known then text else []

@[reducible] def nullWorld : World := sampleWorld .null "null".toUTF8.toList

end

theorem readRecords_builtin {packs : List (String × IndexRecord)} {index : Index} (read : readRecords packs = some index) :
    index.lookup builtinClassic = none := by
  induction packs generalizing index with
  | nil =>
    cases read
    rfl
  | cons entry rest ih =>
    obtain ⟨id, r⟩ := entry
    simp only [readRecords, bind_eq_bind, bind_eq_some_iff] at read
    obtain ⟨tail, earlier, record, kept, out⟩ := read
    cases out
    have other : builtinClassic ≠ id := by
      rintro rfl
      cases kept
    rw [SortedMap.lookup_insert, if_neg other, ih earlier]

theorem parseIndex_builtin [World] (bytes : Bytes) : (parseIndex bytes).index.lookup builtinClassic = none := by
  unfold parseIndex
  split
  case h_1 index read =>
    obtain ⟨v, -, whole⟩ := Option.bind_eq_some_iff.mp read
    simp only [indexOf, bind_eq_bind, bind_eq_some_iff] at whole
    obtain ⟨file, -, rest⟩ := whole
    split at rest
    · exact readRecords_builtin rest
    · cases rest
  case h_2 => rfl

end PlxNative.Hud
