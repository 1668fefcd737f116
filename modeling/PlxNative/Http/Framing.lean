import PlxNative.Http.HttpStream

/-! What the bytes of a response mean, one at a time: the framing as a machine that puts out the
body, and where a stream stands in it between two calls. -/
namespace PlxNative.Http
open Scan

inductive Phase
  | size (line : SizeLine)
  | payload (left : Nat)
  | trailers (hasContent : Bool)
  | sized (left : Nat)
  | done
  | broken (code : Int)
deriving DecidableEq

namespace Phase

def over_ : Phase → Bool
  | .done => true
  | .broken _ => true
  | _ => false

def sizeFound : Option Int → Phase
  | none => .broken 0
  | some n => if n = 0 then .trailers false else if n < 0 then .broken (-1) else .payload n.toNat

def next : Phase → UInt8 → Phase
  | .size line, b => Sum.elim .size sizeFound (line.step b)
  | .payload left, _ => if left ≤ 1 then .size .lead else .payload (left - 1)
  | .trailers hasContent, b => Sum.elim .trailers (fun _ => .done) (trailerStep hasContent b)
  | .sized left, _ => if left ≤ 1 then .done else .sized (left - 1)
  | p, _ => p

def out : Phase → UInt8 → List UInt8
  | .payload _, b => [b]
  | .sized _, b => [b]
  | _, _ => []

/-- A call can be interrupted here and leaves nothing behind that is not in the stream. -/
def resumable : Phase → Bool
  | .size .lead => true
  | .size _ => false
  | .trailers _ => false
  | _ => true

/-- What a read answers where the socket ends in this phase. -/
def endCode : Phase → Int
  | .size line => if line.size.isSome then -1 else 0
  | .done => 0
  | .broken code => code
  | _ => -1

end Phase

namespace Phase

variable {n : Int}

theorem sizeFound_negative (negative : n < 0) : sizeFound (some n) = .broken (-1) := by
  unfold sizeFound
  dsimp only
  rw [if_neg (by omega), if_pos negative]

theorem sizeFound_positive (positive : 0 < n) : sizeFound (some n) = .payload n.toNat := by
  unfold sizeFound
  dsimp only
  rw [if_neg (by omega), if_neg (by omega)]

variable {line : SizeLine}

theorem endCode_unsized (unsized : line.size = none) : endCode (.size line) = 0 := by
  unfold endCode
  dsimp only
  rw [unsized]
  rfl

theorem endCode_sized (sized : line.size = some n) : endCode (.size line) = -1 := by
  unfold endCode
  dsimp only
  rw [sized]
  rfl

end Phase

def framing : Machine Phase UInt8 UInt8 := ⟨Phase.over_, Phase.next, Phase.out⟩

def Phase.after (p : Phase) (bytes : List UInt8) : Phase := (framing.run p bytes).last

theorem size_embeds : framing.Embeds SizeLine.step Phase.size Phase.sizeFound :=
  ⟨fun _ => rfl, fun _ _ => rfl, fun _ _ => rfl⟩

theorem trailers_embed : framing.Embeds trailerStep Phase.trailers (fun _ => Phase.done) :=
  ⟨fun _ => rfl, fun _ _ => rfl, fun _ _ => rfl⟩

def arriving : List Item → List UInt8 := List.filterMap fun
  | .byte b => some b
  | _ => none

@[simp] theorem arriving_byte (b : UInt8) (rest : List Item) : arriving (.byte b :: rest) = b :: arriving rest := rfl

@[simp] theorem arriving_cut (rest : List Item) : arriving (.cut :: rest) = arriving rest := rfl

@[simp] theorem arriving_pause (fired : Fired) (rest : List Item) : arriving (.pause fired :: rest) = arriving rest := rfl

@[simp] theorem arriving_nil : arriving [] = [] := rfl

theorem arriving_append (a b : List Item) : arriving (a ++ b) = arriving a ++ arriving b := List.filterMap_append

/-- Every pause stands where a call can be interrupted. -/
def Harmless : Phase → List Item → Prop
  | _, [] => True
  | p, .byte b :: rest => Harmless (p.next b) rest
  | p, .cut :: rest => Harmless p rest
  | p, .pause _ :: rest => p.resumable = true ∧ Harmless p rest

variable {p : Phase}

theorem Phase.next_over (over_ : p.over_ = true) (b : UInt8) : p.next b = p := by
  cases p <;> first | rfl | cases over_

theorem Phase.after_cons (p : Phase) (b : UInt8) (rest : List UInt8) : p.after (b :: rest) = (p.next b).after rest := by
  unfold Phase.after
  cases over_ : p.over_ with
  | true => rw [Phase.next_over over_, Machine.run_over over_, Machine.run_over over_]
  | false => rw [Machine.run_cons (m := framing) over_ b rest]; rfl

theorem Phase.after_append (p : Phase) (a b : List UInt8) : p.after (a ++ b) = (p.after a).after b := by
  induction a generalizing p with
  | nil => rfl
  | cons x a ih => rw [List.cons_append, after_cons, ih, after_cons]

theorem harmless_append {a b : List Item} : Harmless p (a ++ b) ↔ Harmless p a ∧ Harmless (p.after (arriving a)) b := by
  induction a generalizing p with
  | nil => exact (iff_of_eq (true_and _)).symm
  | cons item a ih =>
    cases item with
    | byte x =>
      rw [arriving_byte, Phase.after_cons]
      exact ih
    | cut => exact ih
    | pause fired =>
      exact (and_congr_right fun _ => ih).trans and_assoc.symm

/-- Items a stream has taken: a pause stands last among them where one has fired. -/
structure Paused (wait : Wait) (fired : Fired) (eaten : List Item) : Prop where
  last : ∃ front given, eaten = front ++ [.pause given] ∧ wait.fires given = some fired

variable {fired : Fired} {wait : Wait}
variable {eaten : List Item}

theorem Paused.cons (item : Item) (paused : Paused wait fired eaten) : Paused wait fired (item :: eaten) := by
  obtain ⟨front, given, rfl, fires⟩ := paused.last
  exact ⟨item :: front, given, rfl, fires⟩

theorem Paused.one {given fired : Fired} (fires : wait.fires given = some fired) :
    Paused wait fired [.pause given] := ⟨[], given, rfl, fires⟩

theorem Paused.resumable {rest : List Item} (paused : Paused wait fired eaten)
    (harmless : Harmless p (eaten ++ rest)) : (p.after (arriving eaten)).resumable = true := by
  obtain ⟨front, given, rfl, -⟩ := paused.last
  rw [arriving_append, Phase.after_append]
  exact (harmless_append.mp (harmless_append.mp harmless).1).2.1

theorem Paused.shorter {wire rest : List Item} (paused : Paused wait fired eaten)
    (whole : wire = eaten ++ rest) : rest.length < wire.length := by
  obtain ⟨front, given, rfl, -⟩ := paused.last
  rw [whole, List.length_append, List.length_append, List.length_singleton]
  omega

theorem Paused.now (paused : Paused .now fired eaten) : fired = .deadline := by
  obtain ⟨front, given, -, fires⟩ := paused.last
  exact (Option.some.inj fires).symm

theorem takeBytes_spec (n : Nat) (items : List Item) : ∃ eaten, items = eaten ++ (takeBytes n items).2 ∧
    arriving eaten = (takeBytes n items).1 ∧ (takeBytes n items).1.length ≤ n := by
  induction items generalizing n with
  | nil => cases n <;> exact ⟨[], rfl, rfl, Nat.zero_le _⟩
  | cons item rest ih =>
    cases n with
    | zero => exact ⟨[], rfl, rfl, Nat.le_refl _⟩
    | succ n =>
      cases item with
      | byte b =>
        obtain ⟨eaten, whole, eq, short⟩ := ih n
        exact ⟨.byte b :: eaten, congrArg (Item.byte b :: ·) whole, congrArg (b :: ·) eq, Nat.succ_le_succ short⟩
      | cut => exact ⟨[], rfl, rfl, Nat.zero_le _⟩
      | pause fired => exact ⟨[], rfl, rfl, Nat.zero_le _⟩

/-- What one `recv` makes of the items it takes. -/
def Recv.Of (wait : Wait) (n : Nat) (eaten rest : List Item) : Recv → Prop
  | .bytes read => arriving eaten = read ∧ read ≠ [] ∧ read.length ≤ n
  | .eof => arriving eaten = [] ∧ rest = []
  | .waits fired => arriving eaten = [] ∧ Paused wait fired eaten

theorem recvItems_spec (wait : Wait) {n : Nat} (room : n ≠ 0) (items : List Item) : ∃ eaten,
    items = eaten ++ (recvItems wait n items).2 ∧ (recvItems wait n items).1.Of wait n eaten (recvItems wait n items).2 := by
  have later : ∀ (item : Item) (rest : List Item), arriving [item] = [] →
      (∃ eaten, rest = eaten ++ (recvItems wait n rest).2 ∧ (recvItems wait n rest).1.Of wait n eaten (recvItems wait n rest).2) →
      ∃ eaten, item :: rest = eaten ++ (recvItems wait n rest).2 ∧
        (recvItems wait n rest).1.Of wait n eaten (recvItems wait n rest).2 := by
    rintro item rest silent ⟨eaten, whole, of⟩
    refine ⟨item :: eaten, congrArg (item :: ·) whole, ?_⟩
    have eq : arriving (item :: eaten) = arriving eaten := by
      rw [← List.singleton_append, arriving_append, silent]
      rfl
    revert of
    cases (recvItems wait n rest).1 with
    | bytes read => exact fun of => ⟨eq.trans of.1, of.2⟩
    | eof => exact fun of => ⟨eq.trans of.1, of.2⟩
    | waits fired => exact fun of => ⟨eq.trans of.1, of.2.cons item⟩
  induction items with
  | nil => exact ⟨[], rfl, rfl, rfl⟩
  | cons item rest ih =>
    cases item with
    | byte b =>
      obtain ⟨n, rfl⟩ := Nat.exists_eq_succ_of_ne_zero room
      obtain ⟨eaten, whole, eq, short⟩ := takeBytes_spec (n + 1) (.byte b :: rest)
      exact ⟨eaten, whole, eq, List.cons_ne_nil _ _, short⟩
    | cut => exact later .cut rest rfl ih
    | pause fired =>
      unfold recvItems
      cases fires : wait.fires fired with
      | none => exact later (.pause fired) rest rfl ih
      | some given => exact ⟨[.pause fired], rfl, rfl, .one fires⟩

def Stop.Of (wait : Wait) (n : Nat) (eaten rest : List Item) (read : List UInt8) : Stop → Prop
  | .full => read.length = n
  | .eof => rest = []
  | .waits fired => Paused wait fired eaten

theorem fillItems_spec (wait : Wait) (n : Nat) (items : List Item) : ∃ eaten, items = eaten ++ (fillItems wait n items).2 ∧
    arriving eaten = (fillItems wait n items).1.1 ∧ (fillItems wait n items).1.1.length ≤ n ∧
    (fillItems wait n items).1.2.Of wait n eaten (fillItems wait n items).2 (fillItems wait n items).1.1 := by
  have later : ∀ (n : Nat) (item : Item) (rest : List Item), arriving [item] = [] →
      (∃ eaten, rest = eaten ++ (fillItems wait n rest).2 ∧ arriving eaten = (fillItems wait n rest).1.1 ∧
        (fillItems wait n rest).1.1.length ≤ n ∧
        (fillItems wait n rest).1.2.Of wait n eaten (fillItems wait n rest).2 (fillItems wait n rest).1.1) →
      ∃ eaten, item :: rest = eaten ++ (fillItems wait n rest).2 ∧ arriving eaten = (fillItems wait n rest).1.1 ∧
        (fillItems wait n rest).1.1.length ≤ n ∧
        (fillItems wait n rest).1.2.Of wait n eaten (fillItems wait n rest).2 (fillItems wait n rest).1.1 := by
    rintro n item rest silent ⟨eaten, whole, eq, short, of⟩
    refine ⟨item :: eaten, congrArg (item :: ·) whole, ?_, short, ?_⟩
    · rw [← List.singleton_append, arriving_append, silent]
      exact eq
    · revert of
      cases (fillItems wait n rest).1.2 with
      | full => exact id
      | eof => exact id
      | waits fired => exact fun of => of.cons item
  induction items generalizing n with
  | nil => cases n <;> exact ⟨[], rfl, rfl, Nat.zero_le _, rfl⟩
  | cons item rest ih =>
    cases n with
    | zero => exact ⟨[], rfl, rfl, Nat.le_refl _, rfl⟩
    | succ n =>
      cases item with
      | byte b =>
        obtain ⟨eaten, whole, eq, short, of⟩ := ih n
        refine ⟨.byte b :: eaten, congrArg (Item.byte b :: ·) whole, congrArg (b :: ·) eq, Nat.succ_le_succ short, ?_⟩
        unfold fillItems
        revert of
        dsimp only [Prod.map]
        cases (fillItems wait n rest).1.2 with
        | full => exact fun of => congrArg Nat.succ of
        | eof => exact id
        | waits fired => exact fun of => of.cons (.byte b)
      | cut => exact later (n + 1) .cut rest rfl (ih (n + 1))
      | pause fired =>
        unfold fillItems
        cases fires : wait.fires fired with
        | none => exact later (n + 1) (.pause fired) rest rfl (ih (n + 1))
        | some given => exact ⟨[.pause fired], rfl, rfl, Nat.zero_le _, .one fires⟩

end PlxNative.Http
