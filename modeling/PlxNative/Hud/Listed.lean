import PlxNative.Hud.Installed

/-! What the text of an `installed.json` lists, whether or not it may be rewritten: reading it
whole gives the same packages, and so does writing an index. -/
namespace PlxNative.Hud
open List
open Json (Value)

/-- The package one record of the text names. -/
def recordSha (v : Value) : Option Sha := (v.fields?.bind (stringField "sha")).bind Sha.parse

def packShas (v : Value) : List Sha :=
  ((v.fields?.bind (field "packs")).bind Value.fields?).getD [] |>.filterMap (fun entry => recordSha entry.2)

def Listed [World] (bytes : Bytes) (sha : Sha) : Prop := ∃ v, World.fromSlice bytes = some v ∧ sha ∈ packShas v

/-- The text written for an index is read as the tree it was written from. -/
def ReadsBack [World] (index : Index) : Prop := World.fromSlice (indexBytes index) = some (indexValue index)

section

variable {packs : List (String × IndexRecord)}
variable {index : Index}

theorem readRecords_lookup (read : readRecords packs = some index)
    (apart : (packs.map Prod.fst).Nodup) (id : String) (record : Record) :
    index.lookup id = some record ↔ ∃ r, (id, r) ∈ packs ∧ recordOf id r = some record := by
  induction packs generalizing index with
  | nil =>
    cases read
    simp
  | cons entry rest ih =>
    obtain ⟨own, r⟩ := entry
    simp only [readRecords, Option.bind_eq_bind, Option.bind_eq_some_iff] at read
    obtain ⟨tail, earlier, kept, made, out⟩ := read
    cases out
    have later := ih earlier (nodup_cons.mp apart).2
    have fresh : ∀ r', (own, r') ∉ rest := fun r' mem =>
      (nodup_cons.mp apart).1 (mem_map.mpr ⟨_, mem, rfl⟩)
    rw [SortedMap.lookup_insert]
    split
    · rename_i eq
      subst eq
      constructor
      · rintro ⟨⟩
        exact ⟨r, mem_cons_self, made⟩
      · rintro ⟨r', mem, made'⟩
        rcases mem_cons.mp mem with head | old
        · cases head
          rw [← made, ← made']
        · exact absurd old (fresh r')
    · rename_i other
      rw [later]
      constructor
      · rintro ⟨r', mem, made'⟩
        exact ⟨r', mem_cons_of_mem _ mem, made'⟩
      · rintro ⟨r', mem, made'⟩
        rcases mem_cons.mp mem with head | old
        · cases head
          exact absurd rfl other
        · exact ⟨r', old, made'⟩

variable {r : IndexRecord}

theorem readRecords_all (read : readRecords packs = some index)
    {id : String} (mem : (id, r) ∈ packs) : ∃ record, recordOf id r = some record := by
  induction packs generalizing index with
  | nil => cases mem
  | cons entry rest ih =>
    simp only [readRecords, Option.bind_eq_bind, Option.bind_eq_some_iff] at read
    obtain ⟨tail, earlier, kept, made, -⟩ := read
    rcases mem_cons.mp mem with rfl | old
    · exact ⟨kept, made⟩
    · exact ih earlier old

theorem recordOf_sha {id : String} {record : Record} (made : recordOf id r = some record) :
    Sha.parse r.sha = some record.sha := by
  unfold recordOf at made
  split at made
  · cases made
  · obtain ⟨sha, parsed, rfl⟩ := Option.map_eq_some_iff.mp made
    exact parsed

variable {v : Value}

theorem indexRecord_sha (read : indexRecord v = some r) : recordSha v = Sha.parse r.sha := by
  unfold indexRecord at read
  simp only [Option.bind_eq_bind, Option.bind_eq_some_iff] at read
  obtain ⟨fields, object, rest⟩ := read
  split at rest
  · simp only [Option.bind_eq_some_iff] at rest
    obtain ⟨sha, named, source, -, at_, -, pf, -, hf, -, from_, -, out⟩ := rest
    cases out
    simp only [recordSha, object, Option.bind_some, named]
  · cases rest

theorem indexRecords_shas (read : indexRecords v = some packs) :
    (packs.map Prod.fst).Nodup ∧ ∃ fields, v.fields? = some fields ∧
      fields.filterMap (fun entry => recordSha entry.2) = packs.filterMap (fun entry => Sha.parse entry.2.sha) := by
  unfold indexRecords at read
  simp only [Option.bind_eq_bind, Option.bind_eq_some_iff] at read
  obtain ⟨fields, object, rest⟩ := read
  split at rest
  · rename_i apart
    suffices both : packs.map Prod.fst = fields.map Prod.fst ∧
        fields.filterMap (fun entry => recordSha entry.2) = packs.filterMap (fun entry => Sha.parse entry.2.sha) from
      ⟨both.1 ▸ apart, fields, object, both.2⟩
    clear object apart
    induction fields generalizing packs with
    | nil =>
      cases rest
      exact ⟨rfl, rfl⟩
    | cons entry more ih =>
      simp only [mapM_cons, Option.bind_eq_bind, Option.bind_eq_some_iff] at rest
      obtain ⟨first, one, others, all, out⟩ := rest
      cases out
      obtain ⟨r, record, rfl⟩ := Option.map_eq_some_iff.mp one
      obtain ⟨ids, shas⟩ := ih all
      constructor
      · rw [map_cons, map_cons, ids]
      · simp only [filterMap_cons, indexRecord_sha record, shas]
  · cases rest

theorem indexOf_shas (read : indexOf v = some index) (sha : Sha) :
    sha ∈ packShas v ↔ Index.Names index sha := by
  unfold indexOf at read
  simp only [Option.bind_eq_bind, Option.bind_eq_some_iff] at read
  obtain ⟨file, whole, rest⟩ := read
  split at rest
  · unfold indexFileOf at whole
    simp only [Option.bind_eq_bind, Option.bind_eq_some_iff] at whole
    obtain ⟨fields, object, inner⟩ := whole
    split at inner
    · simp only [Option.bind_eq_some_iff] at inner
      obtain ⟨n, -, packs, ⟨tree, under, records⟩, out⟩ := inner
      cases out
      obtain ⟨apart, entries, held, shas⟩ := indexRecords_shas records
      have names := readRecords_lookup rest apart
      simp only [packShas, object, Option.bind_some, under, held, Option.getD_some, shas, mem_filterMap]
      constructor
      · rintro ⟨⟨id, r⟩, mem, parsed⟩
        obtain ⟨record, made⟩ := readRecords_all rest mem
        refine ⟨id, record, (names id record).mpr ⟨r, mem, made⟩, ?_⟩
        exact Option.some.inj ((recordOf_sha made).symm.trans parsed)
      · rintro ⟨id, record, kept, rfl⟩
        obtain ⟨r, mem, made⟩ := (names id record).mp kept
        exact ⟨(id, r), mem, recordOf_sha made⟩
    · cases inner
  · cases rest

variable [World]
variable {bytes : Bytes}

theorem parseIndex_writable (whole : (parseIndex bytes).access = .writable) :
    ∃ v index, World.fromSlice bytes = some v ∧ indexOf v = some index ∧ parseIndex bytes = ⟨index, .writable⟩ := by
  cases read : (World.fromSlice bytes).bind indexOf with
  | none =>
    rw [parseIndex, read] at whole
    cases whole
  | some index =>
    obtain ⟨v, tree, made⟩ := Option.bind_eq_some_iff.mp read
    exact ⟨v, index, tree, made, by rw [parseIndex, read]⟩

theorem parseIndex_listed (whole : (parseIndex bytes).access = .writable) (sha : Sha) :
    Listed bytes sha ↔ Index.Names (parseIndex bytes).index sha := by
  obtain ⟨v, index, tree, made, eq⟩ := parseIndex_writable whole
  rw [eq, ← indexOf_shas made]
  constructor
  · rintro ⟨v', tree', mem⟩
    cases tree.symm.trans tree'
    exact mem
  · exact fun mem => ⟨v, tree, mem⟩

omit [World] in
theorem readOnly_names (sha : Sha) : ¬ Index.Names Dir.readOnly.index sha := by
  rintro ⟨id, r, held, -⟩
  cases held

omit [World] in
theorem empty_names (sha : Sha) : ¬ Index.Names Dir.empty.index sha := by
  rintro ⟨id, r, held, -⟩
  cases held

theorem listed_of_names {sha : Sha} (named : Index.Names (parseIndex bytes).index sha) :
    Listed bytes sha := by
  cases access : (parseIndex bytes).access with
  | writable => exact (parseIndex_listed access sha).mpr named
  | readOnly =>
    unfold parseIndex at access named
    split at access
    · cases access
    · rename_i unread
      rw [unread] at named
      exact absurd named (readOnly_names sha)

end

section
variable [World]

omit [World] in
theorem recordSha_value (r : Record) : recordSha (recordValue r) = some r.sha := by
  unfold recordSha recordValue
  cases r.from_ <;> simp [Value.fields?, stringField, field, List.lookup_cons, Value.text?]

theorem indexBytes_listed {index : Index} (reads : ReadsBack index) (sha : Sha) :
    Listed (indexBytes index) sha ↔ Index.Names index sha := by
  have shas : packShas (indexValue index) = index.values.map Record.sha := by
    simp [packShas, indexValue, Value.fields?, field, filterMap_map, Function.comp_def,
      recordSha_value, SortedMap.values]
  have held : Listed (indexBytes index) sha ↔ sha ∈ packShas (indexValue index) := by
    constructor
    · rintro ⟨v, tree, mem⟩
      cases reads.symm.trans tree
      exact mem
    · exact fun mem => ⟨_, reads, mem⟩
  rw [held, shas, mem_map]
  simp only [SortedMap.mem_values, Index.Names]
  constructor
  · rintro ⟨r, ⟨id, kept⟩, eq⟩
    exact ⟨id, r, kept, eq⟩
  · rintro ⟨id, r, kept, eq⟩
    exact ⟨r, ⟨id, kept⟩, eq⟩

end
end PlxNative.Hud
