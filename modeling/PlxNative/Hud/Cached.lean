import Mathlib.Data.Nat.Digits.Defs
import PlxNative.Hud.Serial
import PlxNative.Lib.JsonText

/-! The catalog's cache file: what a write leaves is what the next start reads. -/
namespace PlxNative.Hud.Catalog
open List CacheRecord Json
open Checks (Leaves check)
open Json (Value)
open Transducer (event history run)

section

def stampValue : Option Nat → Value
  | some at_ => .number (toString at_)
  | none => .null

def textValue : Option String → Value
  | some text => .string text
  | none => .null

def CacheFile.value (file : CacheFile) : Value :=
  .object [("protocol", .number (toString file.protocol)), ("checked_at", stampValue file.checkedAt),
    ("attempted_at", stampValue file.attemptedAt), ("etag", textValue file.etag), ("body", .string file.body)]

def CacheFile.bytes (file : CacheFile) : Bytes := file.value.compact.flatMap String.utf8EncodeChar

def CacheRecord.file (record : CacheRecord) : CacheFile :=
  { protocol := 1, checkedAt := record.checkedAt, attemptedAt := record.attemptedAt, etag := record.etag, body := record.body }

/-- Called immediately before the atomic write. -/
def CacheRecord.encode (record : CacheRecord) : Bytes := record.file.bytes

end

section

theorem length_encoded (text : List Char) : (text.flatMap String.utf8EncodeChar).length = textSize text := by
  induction text with
  | nil => rfl
  | cons c text ih => rw [flatMap_cons, length_append, String.length_utf8EncodeChar, ih, textSize_cons]

theorem encoded_bytes (text : String) : (asBytes text).toByteArray = text.toByteArray := by
  rw [← String.utf8Encode_toList]
  rfl

theorem toByteArray_size (text : String) : text.utf8ByteSize = textSize text.toList := by
  rw [← length_encoded, ← size_toByteArray]
  exact congrArg ByteArray.size (encoded_bytes text).symm

theorem asBytes_of_utf8 {bytes : Bytes} {text : String} (read : utf8 bytes = some text) : asBytes text = bytes := by
  unfold utf8 String.fromUTF8? at read
  split at read
  · cases read
    apply toByteArray_inj.mp
    rw [encoded_bytes]
    exact ByteArray.ext (data_toByteArray).symm
  · cases read

theorem utf8_asBytes (text : String) : utf8 (asBytes text) = some text := by
  have bytes : (⟨(asBytes text).toArray⟩ : ByteArray) = text.toByteArray := by
    rw [← encoded_bytes]
    exact ByteArray.ext (data_toByteArray).symm
  unfold utf8 String.fromUTF8?
  rw [bytes, dif_pos text.isValidUTF8]
  rfl

theorem asBytes_eq_nil {text : String} : asBytes text = [] ↔ text = "" := by
  constructor
  · intro empty
    have size := toByteArray_size text
    rw [← length_encoded] at size
    change _ = (asBytes text).length at size
    rw [empty] at size
    exact String.utf8ByteSize_eq_zero_iff.mp size
  · rintro rfl
    rfl

end

section
variable [Registry] {keys : List AcceptedKey}

omit [Registry] in
theorem check_leaves {ε : Type} (ok : Prop) [Decidable ok] (e : ε) : Leaves (fun _ => ok) (check ok e) := fun _ passed =>
  Checks.check_eq_ok.mp passed

theorem verify_leaves (signed : Bytes) (keys : List AcceptedKey) :
    Leaves (fun v => utf8 signed = some v.body ∧ signed ≠ [] ∧ signed.length ≤ signedByteLimit) (verify signed keys) := by
  unfold verify
  refine .after (refusing_leaves _ _) fun newline found => .after (check_leaves _ _) fun _ bounds => .seq fun _ => .seq fun _ =>
    .seq fun _ => .seq fun _ => .seq fun _ => .seq fun _ => .seq fun _ => .seq fun _ => .after (refusing_leaves _ _) fun body text => .pure ?_
  obtain ⟨inside, -, -⟩ := List.findIdx?_eq_some_iff_getElem.mp found
  rw [length_take] at inside
  have index := bounds.1
  rw [length_drop] at index
  refine ⟨text, ?_, ?_⟩
  · rintro rfl
    exact absurd inside (by simp)
  · unfold signedByteLimit
    omega

theorem verify_text {text : String} {v : Verified} (accepted : verify (asBytes text) keys = .ok v) : v.body = text := by
  have read := (verify_leaves _ _ v accepted).1
  rw [utf8_asBytes] at read
  exact (Option.some.inj read).symm

end

section
variable [Registry]

def Fits (at_ : Option Nat) : Prop := ∀ t ∈ at_, t < 2 ^ 64

/-- What a record holds together: its body is what its index was read from, or it has neither. -/
structure Whole (keys : List AcceptedKey) (record : CacheRecord) : Prop where
  both : record.index.isSome = true ↔ record.body ≠ ""
  verified : ∀ index, record.index = some index → ∃ v, verify (asBytes record.body) keys = .ok v ∧ v.index = index
  checked : record.index = none → record.checkedAt = none
  usable : usableEtag record.etag = record.etag
  checkedFits : Fits record.checkedAt
  attemptedFits : Fits record.attemptedAt

/-- The caches and the replies a catalog is told were read under one key table, their times as
64-bit words. -/
def Under (keys : List AcceptedKey) : Event → Prop
  | .open_ _ now => now < 2 ^ 64
  | .read _ (.ok cache) => (∃ bytes, decode bytes keys = .ok cache) ∧ Fits cache.checkedAt ∧ Fits cache.attemptedAt
  | .reply _ (.ok reply) => ∃ status validator body, reply = Reply.http status validator body keys
  | _ => True

structure Coherent (keys : List AcceptedKey) (c : Catalog) : Prop where
  whole : Whole keys c.record
  now : c.now < 2 ^ 64

omit [Registry] in
theorem usableEtag_usable (value : Option String) : usableEtag (usableEtag value) = usableEtag value := by
  unfold usableEtag
  rw [Option.filter_filter]
  simp

omit [Registry] in
theorem usableEtag_or {value held : Option String} (usable : usableEtag held = held) :
    usableEtag ((usableEtag value).or held) = (usableEtag value).or held := by
  cases filtered : usableEtag value with
  | none => exact usable
  | some text =>
    rw [Option.some_or, ← filtered]
    exact usableEtag_usable value

variable {keys : List AcceptedKey}

theorem decode_whole {bytes : Bytes} {cache : CacheRecord} (decoded : decode bytes keys = .ok cache)
    (checkedFits : Fits cache.checkedAt) (attemptedFits : Fits cache.attemptedAt) : Whole keys cache := by
  have shape : Leaves (fun cache : CacheRecord => usableEtag cache.etag = cache.etag ∧
      ((cache.body = "" ∧ cache.checkedAt = none ∧ cache.index = none) ∨
        cache.body ≠ "" ∧ ∃ v, verify (asBytes cache.body) keys = .ok v ∧ cache.index = some v.index)) (decode bytes keys) := by
    refine .seq fun _ => .seq fun file => .seq fun _ => ?_
    split
    case isTrue both => exact .pure ⟨usableEtag_usable _, .inl ⟨both.1, both.2, rfl⟩⟩
    case isFalse =>
      intro cache read
      obtain ⟨v, accepted, out⟩ := Checks.seq_eq_ok.mp read
      cases out
      refine ⟨usableEtag_usable _, .inr ⟨?_, v, ?_, rfl⟩⟩
      · rw [verify_text accepted]
        exact fun empty => (verify_leaves _ _ v accepted).2.1 (asBytes_eq_nil.mpr empty)
      · rw [verify_text accepted]
        exact accepted
  obtain ⟨usable, ⟨body, checked, index⟩ | ⟨body, v, accepted, index⟩⟩ := shape cache decoded
  · exact ⟨by simp [body, index], fun _ held => absurd (index.symm.trans held) nofun, fun _ => checked, usable, checkedFits, attemptedFits⟩
  · refine ⟨by simp [body, index], fun held eq => ⟨v, accepted, ?_⟩, fun none_ => absurd (index.symm.trans none_) nofun, usable, checkedFits,
      attemptedFits⟩
    exact Option.some.inj (index.symm.trans eq)

variable {c : Catalog}

section
variable (coherent : Coherent keys c)
include coherent

theorem write_coherent (at_ : Nat) (fetch : Bool) : Coherent keys (c.write at_ fetch).1 := by
  unfold Catalog.write
  split
  · exact ⟨coherent.whole, coherent.now⟩
  · unfold afterWrite
    split <;> exact ⟨coherent.whole, coherent.now⟩

theorem read_coherent (at_ : Nat) : Coherent keys (c.read at_).1 := by
  have whole := coherent.whole
  unfold Catalog.read
  split
  · exact ⟨whole, coherent.now⟩
  · split
    · refine write_coherent (c := { c with attemptedAt := some c.now, snapshot := { c.snapshot with fetching := true } })
        ⟨⟨whole.both, whole.verified, whole.checked, whole.usable, whole.checkedFits, ?_⟩, coherent.now⟩ 0 true
      rintro t ⟨⟩
      exact coherent.now
    · exact ⟨whole, coherent.now⟩

theorem adopt_coherent {cache : CacheRecord} (whole : Whole keys cache) :
    Coherent keys (c.adopt cache) := by
  unfold Catalog.adopt
  split
  · exact ⟨whole, coherent.now⟩
  · exact coherent

theorem failed_coherent : Coherent keys c.failedRefresh :=
  ⟨coherent.whole, coherent.now⟩

theorem answered_coherent (status : Nat) (validator : Option String) (body : Bytes) :
    Coherent keys (c.answered (Reply.http status validator body keys)).1 := by
  have whole := coherent.whole
  have now : Fits (some c.now) := by
    rintro t ⟨⟩
    exact coherent.now
  unfold Catalog.answered
  split
  case isTrue unchanged =>
    obtain ⟨-, held, -⟩ := unchanged
    refine ⟨⟨whole.both, whole.verified, ?_, usableEtag_or whole.usable, now, whole.attemptedFits⟩, coherent.now⟩
    intro none_
    rw [show c.snapshot.index = none from none_] at held
    cases held
  case isFalse =>
    split
    · exact coherent
    · exact coherent
    case h_3 v signed =>
      split
      case isFalse => exact coherent
      case isTrue =>
        have accepted : verify body keys = .ok v := by
          unfold Reply.http at signed
          simp only at signed
          split at signed
          · exact Option.some.inj signed
          · cases signed
        obtain ⟨text, some_, -⟩ := verify_leaves _ _ v accepted
        have bytes := asBytes_of_utf8 text
        refine ⟨⟨?_, ?_, nofun, usableEtag_usable _, now, whole.attemptedFits⟩, coherent.now⟩
        · refine ⟨fun _ empty => some_ ?_, fun _ => rfl⟩
          rw [← bytes]
          exact asBytes_eq_nil.mpr empty
        · rintro index ⟨⟩
          refine ⟨v, ?_, rfl⟩
          change verify (asBytes v.body) keys = .ok v
          rw [bytes]
          exact accepted

theorem step_coherent {ev : Event} (under : Under keys ev) : Coherent keys (c.step ev).1 := by
  cases ev with
  | load candidates =>
    simp only [Catalog.step]
    split
    · exact read_coherent (c := { c with generation := c.nextGeneration, candidates := candidates, allowFetch := false })
        ⟨coherent.whole, coherent.now⟩ 0
    · exact coherent
  | open_ candidates now =>
    simp only [Catalog.step]
    split
    · exact coherent
    · exact coherent
    · exact ⟨coherent.whole, under⟩
    · exact read_coherent
        (c := { c with allowFetch := true, now := now, generation := c.nextGeneration, candidates := candidates }) ⟨coherent.whole, under⟩ 0
  | read tag result =>
    simp only [Catalog.step]
    split
    · split
      · split
        case h_1 cache =>
          obtain ⟨⟨bytes, decoded⟩, checkedFits, attemptedFits⟩ := under
          exact read_coherent (adopt_coherent coherent (decode_whole decoded checkedFits attemptedFits)) _
        case h_2 => exact read_coherent coherent _
      · exact coherent
    · exact coherent
  | reply tag result =>
    simp only [Catalog.step]
    split
    · refine write_coherent ?_ 0 false
      split
      case h_1 reply =>
        obtain ⟨status, validator, body, rfl⟩ := under
        exact answered_coherent (failed_coherent coherent) status validator body
      case h_2 => exact failed_coherent coherent
    · exact coherent
  | written tag outcome =>
    simp only [Catalog.step]
    split
    · split
      · split
        · unfold afterWrite taken
          split <;> exact ⟨coherent.whole, coherent.now⟩
        · exact write_coherent coherent _ _
      · exact coherent
    · exact coherent

end

theorem coherent_start : Coherent keys new := by
  refine ⟨⟨by decide, nofun, fun _ => rfl, rfl, nofun, nofun⟩, ?_⟩
  decide

theorem history_coherent {l : List Event} (under : ∀ ev ∈ l, Under keys ev) :
    Coherent keys (run Catalog.step Catalog.new l) := by
  induction l using List.reverseRecOn with
  | nil => exact coherent_start
  | append_singleton past ev ih =>
    rw [Transducer.run_append]
    exact step_coherent (ih fun ev' mem => under ev' (mem_append_left _ mem)) (under ev (mem_append_right _ mem_cons_self))

end
section
variable {c : Catalog} {tag : Nat} {at_ : Loc} {record : CacheRecord}

theorem write_record {from_ : Nat} {fetch : Bool} (wrote : .write tag at_ record ∈ (c.write from_ fetch).2) :
    record = (c.write from_ fetch).1.record := by
  unfold Catalog.write at wrote ⊢
  split at wrote
  · cases mem_singleton.mp wrote
    rfl
  · unfold afterWrite at wrote
    split at wrote
    · cases mem_singleton.mp wrote
    · cases wrote

theorem read_record {from_ : Nat} (wrote : .write tag at_ record ∈ (c.read from_).2) : record = (c.read from_).1.record := by
  unfold Catalog.read at wrote ⊢
  split at wrote
  · cases mem_singleton.mp wrote
  · split at wrote
    · rw [if_pos (by assumption)]
      exact write_record wrote
    · cases wrote

theorem step_record {e : Event} (wrote : .write tag at_ record ∈ (c.step e).2.2) : record = (c.step e).1.record := by
  cases e with
  | load candidates =>
    simp only [Catalog.step] at wrote ⊢
    split at wrote
    · rw [if_pos (by assumption)]
      exact read_record wrote
    · cases wrote
  | open_ candidates now =>
    simp only [Catalog.step] at wrote ⊢
    split at wrote
    · cases wrote
    · cases wrote
    · cases wrote
    · exact read_record wrote
  | read read_tag result =>
    simp only [Catalog.step] at wrote ⊢
    split at wrote
    · split at wrote
      · rw [if_pos (by assumption)]
        split at wrote <;> exact read_record wrote
      · cases wrote
    · cases wrote
  | reply reply_tag result =>
    simp only [Catalog.step] at wrote ⊢
    split at wrote
    · rw [if_pos (by assumption)]
      rcases mem_append.mp wrote with early | late
      · split at early
        case h_1 reply =>
          exact absurd early (by
            unfold Catalog.answered
            split
            · exact not_mem_nil
            · split
              · exact not_mem_nil
              · exact fun mem => by cases mem_singleton.mp mem
              · split
                · exact not_mem_nil
                · exact fun mem => by cases mem_singleton.mp mem)
        case h_2 => cases early
      · exact write_record late
    · cases wrote
  | written written_tag outcome =>
    simp only [Catalog.step] at wrote ⊢
    split at wrote
    · split at wrote
      · rw [if_pos (by assumption)]
        split at wrote
        · unfold afterWrite taken at wrote
          split at wrote
          · cases mem_singleton.mp wrote
          · cases wrote
        · exact write_record wrote
      · cases wrote
    · cases wrote

end
section

theorem stamp_size {at_ : Option Nat} (fits : Fits at_) : (stampValue at_).encodedSize ≤ 20 := by
  cases at_ with
  | none => decide
  | some t =>
    have small : t < 10 ^ 20 := (fits t rfl).trans (by decide)
    have digits := (Nat.length_toDigits_le_iff (b := 10) (by decide) (by decide)).mpr small
    change textSize (String.ofList (Nat.toDigits 10 t)).toList ≤ 20
    rw [String.toList_ofList]
    have each : ∀ c ∈ Nat.toDigits 10 t, c.utf8Size = 1 := by
      intro c mem
      have digit := Nat.isDigit_of_mem_toDigits (by decide) (by decide) mem
      rw [Char.isDigit_iff_toNat] at digit
      have nine : '9'.toNat = 57 := rfl
      exact small_size (by omega)
    unfold textSize
    rw [map_eq_replicate_iff.mpr each, sum_replicate]
    simpa using digits

theorem etag_size {etag : Option String} (usable : usableEtag etag = etag) : (textValue etag).encodedSize ≤ 2050 := by
  cases etag with
  | none => decide
  | some text =>
    have held := Option.filter_eq_some_iff.mp usable
    simp only [Bool.and_eq_true, bne_iff_ne, decide_eq_true_eq, Bool.not_eq_true'] at held
    obtain ⟨-, ⟨-, short⟩, printed⟩ := held
    have doubled := escapedLength_le_double (s := text) (fun c mem low => by
      have control : text.toList.any isControl = true := any_eq_true.mpr ⟨c, mem, by simp [isControl, low]⟩
      rw [printed] at control
      cases control)
    rw [toByteArray_size] at short
    change 2 + escapedLength text ≤ 2050
    omega

variable [Registry] {keys : List AcceptedKey} {record : CacheRecord}

theorem body_size (whole : Whole keys record) : (Value.string record.body).encodedSize ≤ signedByteLimit * 6 + 2 := by
  have escaped := escapedLength_le record.body
  have short : textSize record.body.toList ≤ signedByteLimit := by
    cases held : record.index with
    | none =>
      have empty : record.body = "" := by
        by_contra some_
        have both := whole.both.mpr some_
        rw [held] at both
        cases both
      rw [empty]
      exact Nat.zero_le _
    | some index =>
      obtain ⟨v, accepted, -⟩ := whole.verified index held
      have bound := (verify_leaves _ _ v accepted).2.2
      rw [← length_encoded]
      exact bound
  change 2 + escapedLength record.body ≤ _
  omega

theorem encode_size (whole : Whole keys record) : record.encode.length ≤ cacheByteLimit := by
  have checked := stamp_size whole.checkedFits
  have attempted := stamp_size whole.attemptedFits
  have etag := etag_size whole.usable
  have body := body_size whole
  unfold encode CacheFile.bytes
  rw [length_encoded, compact_size]
  have keys : escapedLength "protocol" = 8 ∧ escapedLength "checked_at" = 10 ∧ escapedLength "attempted_at" = 12 ∧
      escapedLength "etag" = 4 ∧ escapedLength "body" = 4 ∧ utf8Length (toString 1) = 1 := by decide
  obtain ⟨protocol, checkedAt, attemptedAt, etagKey, bodyKey, one⟩ := keys
  unfold Value.encodedSize at *
  simp only [CacheFile.value, CacheRecord.file, Value.sizeWith, fieldsSize, commas, length_cons, length_nil, protocol,
    checkedAt, attemptedAt, etagKey, bodyKey, one] at body ⊢
  unfold cacheByteLimit
  omega

theorem decode_encode (whole : Whole keys record) (read : Registry.cacheOf record.encode = some record.file) :
    decode record.encode keys = .ok record := by
  have usable := whole.usable
  unfold decode
  rw [Checks.then_of_ok (Checks.check_ok (encode_size whole)), read]
  change (if record.body = "" ∧ record.checkedAt = none then
      (Except.ok ⟨record.checkedAt, record.attemptedAt, usableEtag record.etag, record.body, none⟩ : Except Refusal CacheRecord)
    else verify (asBytes record.body) keys >>= fun v =>
      .ok ⟨record.checkedAt, record.attemptedAt, usableEtag record.etag, v.body, some v.index⟩) = .ok record
  rw [usable]
  cases held : record.index with
  | none =>
    have empty : record.body = "" := by
      by_contra some_
      have both := whole.both.mpr some_
      rw [held] at both
      cases both
    rw [if_pos ⟨empty, whole.checked held⟩, ← held]
  | some index =>
    have some_ : record.body ≠ "" := whole.both.mp (by rw [held]; rfl)
    obtain ⟨v, accepted, eq⟩ := whole.verified index held
    rw [if_neg (fun both => some_ both.1), accepted]
    change Except.ok (ε := Refusal) (⟨_, _, _, v.body, some v.index⟩ : CacheRecord) = _
    rw [verify_text accepted, eq, ← held]

end
section
variable [Registry]

/-- Along every run the held triple is coherent, and every cache file that is written is short
enough and is read back as it was. -/
theorem cache_restores (keys : List AcceptedKey) (inputs : List Event) (under : ∀ ev ∈ inputs, Under keys ev) :
    Whole keys (run Catalog.step Catalog.new inputs).record ∧
      ∀ e ∈ history Catalog.step Catalog.new inputs, ∀ tag at_ record, .write tag at_ record ∈ e.answer.2 →
        record.encode.length ≤ cacheByteLimit ∧
          (Registry.cacheOf record.encode = some record.file → decode record.encode keys = .ok record) := by
  refine ⟨(history_coherent under).whole, fun e member tag at_ record wrote => ?_⟩
  obtain ⟨before, later, parts⟩ := append_of_mem member
  obtain ⟨past, ev, rest, rfl, -, rfl, -⟩ := Transducer.history_split Catalog.step parts
  have earlier := history_coherent (l := past) fun ev' member => under ev' (mem_append_left _ member)
  have reached := step_coherent earlier (under ev (mem_append_right _ mem_cons_self))
  have same := step_record (c := run Catalog.step Catalog.new past) (e := ev) wrote
  have whole := reached.whole
  rw [← same] at whole
  exact ⟨encode_size whole, decode_encode whole⟩

end
section

attribute [local instance] sampleRegistry

def firstVisit : List Event :=
  [.open_ [⟨["a"], false⟩] 100, .read 1 (.error .missing), .written 1 .done, .reply 1 (.ok (Reply.http 200 none (asBytes sampleBody) sampleKeys))]

theorem cache_restores_first : checkedRecord.encode = asBytes checkedFile ∧ checkedRecord.encode.length ≤ cacheByteLimit ∧
    decode checkedRecord.encode sampleKeys = .ok checkedRecord := by
  have under : ∀ ev ∈ firstVisit, Under sampleKeys ev := by
    simp only [firstVisit, forall_mem_cons, not_mem_nil, false_implies, implies_true, and_true]
    exact ⟨(by decide : 100 < 2 ^ 64), trivial, trivial, ⟨200, none, asBytes sampleBody, rfl⟩⟩
  have wrote : CatalogEffect.write 1 ⟨["a"], cacheFile⟩ checkedRecord ∈
      (history Catalog.step Catalog.new firstVisit).flatMap (fun e => e.answer.2) := by decide +kernel
  obtain ⟨e, member, here⟩ := mem_flatMap.mp wrote
  have file : checkedRecord.encode = asBytes checkedFile := by decide +kernel
  have read : sampleRegistry.cacheOf checkedRecord.encode = some checkedRecord.file := by
    rw [file]
    exact if_pos rfl
  obtain ⟨short, restores⟩ := (cache_restores sampleKeys firstVisit under).2 e member 1 _ checkedRecord here
  exact ⟨file, short, restores read⟩

end
end PlxNative.Hud.Catalog
