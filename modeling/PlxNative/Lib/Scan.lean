import Mathlib.Data.List.Basic

/-! Automata fed one symbol at a time: scanners that stop when they have found something, and
machines that put out as they go until they are over. -/
namespace PlxNative.Scan
open List

universe u v w x
variable {σ : Type u} {β : Type v} {ρ : Type w} {γ : Type x}

/-- How a scan ends: it has found something, its source has ended, or it waits for more. -/
inductive Scanned (σ : Type u) (ρ : Type w) (ε : Type x)
  | stopped (found : ρ)
  | ended (s : σ)
  | waits (why : ε) (s : σ)

/-- A scan of what is there, and what it has left. -/
def feed (step : σ → β → σ ⊕ ρ) : List β → σ → (σ ⊕ ρ) × List β
  | [], s => (.inl s, [])
  | b :: rest, s => match step s b with
    | .inl s => feed step rest s
    | .inr found => (.inr found, rest)

/-- What is put out symbol by symbol, in states of which some are over. -/
structure Machine (σ : Type u) (β : Type v) (γ : Type x) where
  over_ : σ → Bool
  next : σ → β → σ
  out : σ → β → List γ

structure Result (σ : Type u) (β : Type v) (γ : Type x) where
  out : List γ
  last : σ
  left : List β

namespace Machine
variable (m : Machine σ β γ)

def run : σ → List β → Result σ β γ
  | s, [] => ⟨[], s, []⟩
  | s, b :: rest =>
    if m.over_ s then ⟨[], s, b :: rest⟩
    else
      let r := run (m.next s b) rest
      ⟨m.out s b ++ r.out, r.last, r.left⟩

/-- All of these symbols are read, on the way from one state to another. -/
def Reads (s : σ) (taken : List β) (out : List γ) (s' : σ) : Prop := m.run s taken = ⟨out, s', []⟩

variable {m}
variable {s : σ}

theorem run_over (over_ : m.over_ s = true) (bs : List β) : m.run s bs = ⟨[], s, bs⟩ := by
  cases bs with
  | nil => rfl
  | cons b rest => exact if_pos over_

theorem run_cons (going : m.over_ s = false) (b : β) (rest : List β) : m.run s (b :: rest) =
    ⟨m.out s b ++ (m.run (m.next s b) rest).out, (m.run (m.next s b) rest).last, (m.run (m.next s b) rest).left⟩ :=
  if_neg (Bool.not_eq_true _ ▸ going)

theorem Reads.nil (s : σ) : m.Reads s [] [] s := rfl

variable {s' : σ} {taken : List β} {out : List γ}

theorem Reads.cons {b : β} (going : m.over_ s = false)
    (reads : m.Reads (m.next s b) taken out s') : m.Reads s (b :: taken) (m.out s b ++ out) s' := by
  unfold Reads at reads ⊢
  rw [run_cons going, reads]

theorem Reads.one (going : m.over_ s = false) (b : β) : m.Reads s [b] (m.out s b) (m.next s b) := by
  have reads := Reads.cons (b := b) going (Reads.nil (m.next s b))
  rwa [append_nil] at reads

theorem Reads.run_append (reads : m.Reads s taken out s') (rest : List β) :
    m.run s (taken ++ rest) = ⟨out ++ (m.run s' rest).out, (m.run s' rest).last, (m.run s' rest).left⟩ := by
  induction taken generalizing s out with
  | nil =>
    cases reads
    rfl
  | cons b taken ih =>
    cases over_ : m.over_ s with
    | true => cases (run_over over_ (b :: taken)).symm.trans reads
    | false =>
      unfold Reads at reads
      rw [run_cons over_] at reads
      have inner : m.Reads (m.next s b) taken (m.run (m.next s b) taken).out s' := by
        unfold Reads
        injection reads with _ last left
        rw [← last, ← left]
      have split : m.out s b ++ (m.run (m.next s b) taken).out = out := congrArg Result.out reads
      rw [cons_append, run_cons over_, ih inner, ← split, append_assoc]

variable {out' : List γ}

theorem Reads.trans {s'' : σ} {a b : List β} (first : m.Reads s a out s')
    (second : m.Reads s' b out' s'') : m.Reads s (a ++ b) (out ++ out') s'' := by
  unfold Reads
  rw [first.run_append, second]

theorem run_reads (s : σ) (bs : List β) : ∃ taken, bs = taken ++ (m.run s bs).left ∧
    m.Reads s taken (m.run s bs).out (m.run s bs).last ∧ ((m.run s bs).left ≠ [] → m.over_ (m.run s bs).last = true) := by
  induction bs generalizing s with
  | nil => exact ⟨[], rfl, rfl, fun some_left => absurd rfl some_left⟩
  | cons b rest ih =>
    cases over_ : m.over_ s with
    | true =>
      rw [run_over over_]
      exact ⟨[], rfl, rfl, fun _ => over_⟩
    | false =>
      obtain ⟨taken, whole, reads, ends⟩ := ih (m.next s b)
      rw [run_cons over_]
      exact ⟨b :: taken, congrArg (b :: ·) whole, reads.cons over_, ends⟩

theorem out_of_append (s : σ) (a b : List β) : (m.run s a).out <+: (m.run s (a ++ b)).out := by
  obtain ⟨taken, whole, reads, -⟩ := m.run_reads s a
  have split : a ++ b = taken ++ ((m.run s a).left ++ b) := by rw [← append_assoc, ← whole]
  rw [split, reads.run_append]
  exact prefix_append _ _

theorem Reads.out_begins {p q : σ} {a b c d : List β} (first : m.Reads s a out p)
    (second : m.Reads s b out' q) (over_ : m.over_ q = true) (eq : a ++ c = b ++ d) : out <+: out' := by
  have begins := m.out_of_append s a c
  rw [eq, first, second.run_append, run_over over_, append_nil] at begins
  exact begins

theorem Reads.ends_once {p q : σ} {a b c d : List β} (first : m.Reads s a out p) (over_ : m.over_ p = true)
    (second : m.Reads s b out' q) (over' : m.over_ q = true) (eq : a ++ c = b ++ d) : a = b ∧ out = out' ∧ p = q := by
  have runs := first.run_append c
  rw [eq, second.run_append, run_over over_, run_over over', append_nil, append_nil] at runs
  injection runs with outs states lefts
  obtain rfl : d = c := lefts
  exact ⟨append_cancel_right eq, outs.symm, states.symm⟩

/-- A scanner inside of a machine: while it scans, the machine puts out nothing. -/
structure Embeds (m : Machine σ β γ) {τ : Type u} (step : τ → β → τ ⊕ ρ) (state : τ → σ) (after : ρ → σ) : Prop where
  going : ∀ t, m.over_ (state t) = false
  silent : ∀ t b, m.out (state t) b = []
  next : ∀ t b, m.next (state t) b = Sum.elim state after (step t b)

theorem Embeds.feed {τ : Type u} {step : τ → β → τ ⊕ ρ} {state : τ → σ} {after : ρ → σ} (embeds : Embeds m step state after)
    (bs : List β) (t : τ) : ∃ taken, bs = taken ++ (feed step bs t).2 ∧
      m.Reads (state t) taken [] (Sum.elim state after (feed step bs t).1) ∧ ((feed step bs t).1.isLeft = true → (feed step bs t).2 = []) := by
  induction bs generalizing t with
  | nil => exact ⟨[], rfl, Reads.nil _, fun _ => rfl⟩
  | cons b rest ih =>
    have one := Reads.one (embeds.going t) b
    rw [embeds.silent, embeds.next] at one
    unfold Scan.feed
    split
    case h_1 t' stepped =>
      rw [stepped] at one
      obtain ⟨taken, whole, reads, emptied⟩ := ih t'
      exact ⟨b :: taken, congrArg (b :: ·) whole, one.trans reads, emptied⟩
    case h_2 found stepped =>
      rw [stepped] at one
      exact ⟨[b], rfl, one, fun left => nomatch left⟩

end Machine
end PlxNative.Scan
