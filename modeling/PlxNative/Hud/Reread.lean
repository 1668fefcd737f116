import PlxNative.Hud.Authority
import PlxNative.Hud.Installed
import PlxNative.Lib.Checks

/-! `installed.json` there and back: what the store writes is what it reads, and what it reads it
could have written. -/
namespace PlxNative.Hud
open List Usize SortedMap Decimal
open Json (Value)

def Address.Parsed (a : Address) : Prop := ∃ text, Address.parse text = .ok a

/-- A record the store keeps: of the formats it reads, with an address only where it came from a
development source. -/
structure Record.Held (r : Record) : Prop where
  packageFormat : r.packageFormat = "1.0"
  hudFormat : r.hudFormat = "1.0"
  time : r.at_ < size
  from_ : ∀ a ∈ r.from_, r.source = .address ∧ a.devSource = true ∧ a.Parsed

def heldId (id : String) : Prop := id ≠ builtinClassic ∧ validPackageId id = true

def Index.Held (index : Index) : Prop := ∀ id r, index.lookup id = some r → heldId id ∧ r.Held

/-- The tree that is written is the tree that is read. -/
def ReadBack [World] (v : Value) : Prop := World.fromSlice (World.toBytes v) = some v

section

variable {n : Nat}

theorem parseU64_toString (fits : n < size) : parseU64 (toString n) = some n := by
  have text : (toString n).toList = Decimal.written n := by
    change (String.ofList (Nat.toDigits 10 n)).toList = _
    rw [String.toList_ofList]
    rfl
  have digits := written_digits n
  have unsigned := digits.head_ne (show '+'.isDigit = false by decide)
  unfold parseU64
  rw [text]
  split
  · rename_i rest opened
    rw [opened] at unsigned
    exact absurd rfl unsigned
  · rw [if_neg (fun empty => written_ne_nil n (List.isEmpty_iff.mp empty))]
    have read := parseDigits_eq (n := 0) digits (by
      change value (Decimal.written n) < _
      rw [value_written]
      exact fits)
    rw [read]
    exact congrArg some (value_written n)

theorem parseDigits_lt {s : List Char} {m : Nat} (fits : n < size) (read : parseDigits s n = some m) : m < size := by
  induction s generalizing n with
  | nil =>
    cases read
    exact fits
  | cons c s ih =>
    simp only [parseDigits, Option.bind_eq_bind, Option.bind_eq_some_iff] at read
    obtain ⟨d, -, rest⟩ := read
    split at rest
    case isTrue small => exact ih small rest
    case isFalse => cases rest

theorem parseU64_lt {s : String} (read : parseU64 s = some n) : n < size := by
  unfold parseU64 at read
  simp only at read
  split at read
  · split at read
    · cases read
    · exact parseDigits_lt (by decide) read
  · split at read
    · cases read
    · exact parseDigits_lt (by decide) read

theorem numberField_lt {name : String} {fields : List (String × Value)} (read : numberField name fields = some n) : n < size := by
  unfold numberField at read
  split at read
  · exact parseU64_lt read
  · cases read

end
section

/-- What a record is read as where it is written. -/
def Record.written (r : Record) : IndexRecord :=
  { sha := r.sha.hex, source := r.source, at_ := r.at_, packageFormat := r.packageFormat, hudFormat := r.hudFormat
    from_ := r.from_.map Address.url }

theorem sourceOf_asStr (source : Source) : sourceOf (.string source.asStr) = some source := by
  cases source <;> rfl

theorem indexRecord_value {r : Record} (time : r.at_ < size) : indexRecord (recordValue r) = some r.written := by
  have number := parseU64_toString time
  have known := sourceOf_asStr r.source
  have read (from_ : Option String) (fields : List (String × Value))
      (keyed : wellKeyed ["sha", "source", "at", "package_format", "hud_format", "from"] fields = true)
      (sha : stringField "sha" fields = some r.sha.hex) (source : field "source" fields = some (.string r.source.asStr))
      (at_ : numberField "at" fields = parseU64 (toString r.at_))
      (packageFormat : stringField "package_format" fields = some r.packageFormat)
      (hudFormat : stringField "hud_format" fields = some r.hudFormat) (named : optionalField "from" fields = some from_) :
      indexRecord (.object fields) = some { r.written with from_ := from_ } := by
    unfold indexRecord
    rw [Value.fields?, Option.bind_eq_bind, Option.bind_some, if_pos keyed, sha, source, at_, packageFormat, hudFormat, named, number,
      Option.bind_some, known]
    rfl
  unfold recordValue
  cases from_ : r.from_ with
  | none =>
    rw [read none _ rfl rfl rfl rfl rfl rfl rfl]
    unfold Record.written
    rw [from_]
    rfl
  | some address =>
    rw [read (some address.url) _ rfl rfl rfl rfl rfl rfl rfl]
    unfold Record.written
    rw [from_]
    rfl

theorem recordOf_written {id : String} {r : Record} (known : heldId id) (held : r.Held) : recordOf id r.written = some r := by
  unfold recordOf Record.written
  rw [if_neg (by simp [known.1, known.2, held.packageFormat, held.hudFormat]), Sha.parse_hex, Option.map_some]
  obtain ⟨sha, source, at_, packageFormat, hudFormat, from_⟩ := r
  unfold Record.new Record.fromDevSource
  cases from_ with
  | none => rfl
  | some address =>
    obtain ⟨addressed, dev, text, parsed⟩ := held.from_ address rfl
    simp only at addressed
    rw [Option.map_some, Option.bind_some, Address.parse_url parsed]
    simp [Except.toOption, addressed, dev]

variable {entries : List (String × Record)}

theorem readRecords_written (held : ∀ e ∈ entries, heldId e.1 ∧ e.2.Held) :
    ∃ index, readRecords (entries.map (fun e => (e.1, e.2.written))) = some index ∧ ∀ id, index.lookup id = entries.lookup id := by
  induction entries with
  | nil => exact ⟨SortedMap.empty, rfl, fun _ => rfl⟩
  | cons entry rest ih =>
    obtain ⟨id, r⟩ := entry
    obtain ⟨⟨known, kept⟩, later⟩ := forall_mem_cons.mp held
    obtain ⟨index, read, eq⟩ := ih later
    refine ⟨index.insert id r, ?_, fun other => ?_⟩
    · rw [map_cons, readRecords, read]
      simp only [Option.bind_some, recordOf_written known kept]
      rfl
    · rw [lookup_insert, lookup_cons, eq]
      by_cases here : other = id
      · rw [if_pos here, beq_iff_eq.mpr here]
      · rw [if_neg here, beq_eq_false_iff_ne.mpr here]

theorem mapM_of_forall {α β : Type} {f : α → Option β} {g : α → β} {l : List α} (each : ∀ a ∈ l, f a = some (g a)) :
    l.mapM f = some (l.map g) := by
  induction l with
  | nil => rfl
  | cons a l ih =>
    rw [mapM_cons, each a mem_cons_self, ih fun b mem => each b (mem_cons_of_mem _ mem)]
    rfl

theorem mem_of_mapM {α β : Type} {f : α → Option β} {l : List α} {out : List β} (read : l.mapM f = some out) {b : β} (mem : b ∈ out) :
    ∃ a ∈ l, f a = some b := by
  induction l generalizing out with
  | nil =>
    cases read
    cases mem
  | cons a l ih =>
    simp only [mapM_cons, Option.bind_eq_bind, Option.bind_eq_some_iff] at read
    obtain ⟨first, here, rest, later, out'⟩ := read
    cases out'
    rcases mem_cons.mp mem with rfl | inside
    · exact ⟨a, mem_cons_self, here⟩
    · obtain ⟨c, known, made⟩ := ih later inside
      exact ⟨c, mem_cons_of_mem _ known, made⟩

theorem indexRecords_value (ordered : entries.Pairwise (fun a b => a.1 < b.1))
    (fits : ∀ e ∈ entries, e.2.at_ < size) :
    indexRecords (.object (entries.map (fun e => (e.1, recordValue e.2)))) = some (entries.map (fun e => (e.1, e.2.written))) := by
  have ids : ((entries.map (fun e => (e.1, recordValue e.2))).map Prod.fst).Nodup := by
    rw [map_map, nodup_iff_pairwise_ne, pairwise_map]
    exact ordered.imp ne_of_lt
  unfold indexRecords
  rw [Value.fields?, Option.bind_eq_bind, Option.bind_some, if_pos ids, mapM_map]
  refine mapM_of_forall fun e mem => ?_
  simp only [Function.comp_apply, indexRecord_value (fits e mem), Option.map_some]

theorem indexOf_value {index : Index} (held : index.Held) : indexOf (indexValue index) = some index := by
  have each : ∀ e ∈ index.entries, heldId e.1 ∧ e.2.Held := fun e mem => held e.1 e.2 (lookup_eq_some.mpr mem)
  obtain ⟨out, read, eq⟩ := readRecords_written each
  have records := indexRecords_value index.ordered fun e mem => (each e mem).2.time
  have whole : out = index := ext_lookup eq
  rw [whole] at read
  unfold indexOf indexFileOf indexValue
  rw [Value.fields?, Option.bind_eq_bind, Option.bind_eq_bind, Option.bind_some, if_pos (by rfl)]
  have version : numberField "v" [("packs", .object (index.entries.map (fun e => (e.1, recordValue e.2)))), ("v", .number (toString indexFormat))] =
      some 1 := parseU64_toString (n := 1) (by decide)
  have packs : field "packs" [("packs", .object (index.entries.map (fun e => (e.1, recordValue e.2)))), ("v", .number (toString indexFormat))] =
      some (.object (index.entries.map (fun e => (e.1, recordValue e.2)))) := rfl
  rw [version, packs]
  simp only [Option.bind_some, records]
  exact read

end
section

variable {v : Value} {r : IndexRecord}

theorem indexRecord_time (read : indexRecord v = some r) : r.at_ < size := by
  obtain ⟨fields, -, rest⟩ := Option.bind_eq_some_iff.mp read
  split at rest
  case isFalse => cases rest
  case isTrue =>
    simp only [Option.bind_eq_bind, Option.bind_eq_some_iff] at rest
    obtain ⟨_, -, _, -, at_, time, _, -, _, -, _, -, out⟩ := rest
    cases out
    exact numberField_lt time

variable {packs : List (String × IndexRecord)}

theorem indexRecords_time (read : indexRecords v = some packs) : ∀ e ∈ packs, e.2.at_ < size := by
  obtain ⟨fields, -, rest⟩ := Option.bind_eq_some_iff.mp read
  split at rest
  case isFalse => cases rest
  case isTrue =>
    intro e mem
    obtain ⟨field, -, made⟩ := mem_of_mapM rest mem
    obtain ⟨r, read, rfl⟩ := Option.map_eq_some_iff.mp made
    exact indexRecord_time read

theorem recordOf_held {id : String} {record : Record} (time : r.at_ < size) (kept : recordOf id r = some record) :
    heldId id ∧ record.Held := by
  unfold recordOf at kept
  split at kept
  case isTrue => cases kept
  case isFalse known =>
    simp only [not_or, not_not] at known
    obtain ⟨other, valid, packageFormat, hudFormat⟩ := known
    obtain ⟨sha, -, rfl⟩ := Option.map_eq_some_iff.mp kept
    refine ⟨⟨other, Bool.not_eq_false _ ▸ valid⟩, packageFormat, hudFormat, time, fun a named => ?_⟩
    obtain ⟨found, passes⟩ := Option.filter_eq_some_iff.mp named
    rw [Bool.and_eq_true, decide_eq_true_eq] at passes
    obtain ⟨text, -, parsed⟩ := Option.bind_eq_some_iff.mp found
    exact ⟨passes.1, passes.2, text, Checks.ok_of_toOption parsed⟩

theorem readRecords_held (time : ∀ e ∈ packs, e.2.at_ < size) {index : Index}
    (read : readRecords packs = some index) : index.Held := by
  induction packs generalizing index with
  | nil =>
    cases read
    exact fun id r found => nomatch found
  | cons entry rest ih =>
    simp only [readRecords, Option.bind_eq_bind, Option.bind_eq_some_iff] at read
    obtain ⟨tail, earlier, record, kept, out⟩ := read
    cases out
    intro other r' found
    rw [lookup_insert] at found
    split at found
    case isTrue eq =>
      cases found
      rw [eq]
      exact recordOf_held (time _ mem_cons_self) kept
    case isFalse => exact ih (fun e mem => time e (mem_cons_of_mem _ mem)) earlier other r' found

theorem indexOf_held {index : Index} (read : indexOf v = some index) : index.Held := by
  obtain ⟨file, filed, rest⟩ := Option.bind_eq_some_iff.mp read
  obtain ⟨fields, -, inner⟩ := Option.bind_eq_some_iff.mp filed
  split at inner
  case isFalse => cases inner
  case isTrue =>
    simp only [Option.bind_eq_bind, Option.bind_eq_some_iff] at inner
    obtain ⟨version, -, packs, ⟨tree, -, records⟩, out⟩ := inner
    cases out
    split at rest
    · exact readRecords_held (indexRecords_time records) rest
    · cases rest

end
section
variable [World]
variable {index : Index}

theorem parseIndex_bytes (held : index.Held) (json : ReadBack (indexValue index)) :
    parseIndex (indexBytes index) = ⟨index, .writable⟩ := by
  unfold parseIndex indexBytes
  rw [json, Option.bind_some, indexOf_value held]

theorem parseIndex_held {bytes : Bytes} (read : parseIndex bytes = ⟨index, .writable⟩) : index.Held := by
  unfold parseIndex at read
  split at read
  case h_1 whole =>
    cases read
    obtain ⟨v, -, inner⟩ := Option.bind_eq_some_iff.mp whole
    exact indexOf_held inner
  case h_2 => cases read

/-- An index the store holds is read back as it was written, and one that is read is one the
store holds, so that writing and reading it changes nothing. -/
theorem index_round_trip :
    (∀ index : Index, index.Held → ReadBack (indexValue index) → parseIndex (indexBytes index) = ⟨index, .writable⟩) ∧
      ∀ bytes index, parseIndex bytes = ⟨index, .writable⟩ → index.Held ∧
        (ReadBack (indexValue index) → parseIndex (indexBytes index) = ⟨index, .writable⟩) :=
  ⟨fun _ held json => parseIndex_bytes held json, fun _ _ read => ⟨parseIndex_held read, parseIndex_bytes (parseIndex_held read)⟩⟩

end
section

/-- A package a developer's machine serves. -/
def servedIndex : Index :=
  SortedMap.empty.insert "com.example.hud"
    ((Record.new emptySha .address 5 "1.0" "1.0").fromDevSource (some ⟨"http://192.168.1.20/hud.plxhud", "192.168.1.20", true⟩))

@[reducible] def servedWorld : World := sampleWorld (indexValue servedIndex) [0x7b, 0x7d]

attribute [local instance] servedWorld

theorem index_round_trip_served : parseIndex (indexBytes servedIndex) = ⟨servedIndex, .writable⟩ := by
  have bytes : World.toBytes (indexValue servedIndex) = [0x7b, 0x7d] := if_pos rfl
  have json : ReadBack (indexValue servedIndex) := if_pos bytes
  have held : servedIndex.Held := by
    intro id r found
    unfold servedIndex at found
    rw [lookup_insert, lookup_empty] at found
    split at found
    case isTrue same =>
      cases found
      refine ⟨?_, rfl, rfl, (by decide : 5 < size), fun a named => ?_⟩
      · rw [same]
        exact ⟨by decide, by decide +kernel⟩
      · cases named
        exact ⟨rfl, rfl, "http://192.168.1.20/hud.plxhud", Checks.ok_of_toOption (by decide +kernel)⟩
    case isFalse => cases found
  exact index_round_trip.1 servedIndex held json

end
end PlxNative.Hud
