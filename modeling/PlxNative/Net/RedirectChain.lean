import PlxNative.Net.Redirect

/-! A followed open as a chain of targets: what one hop does to the target, and what holds of
every open of the chain. -/
namespace PlxNative.Net
open List Text Checks

def Run.endsAt (run : Run) (target : Target) : Prop :=
  run.outcome = .returned (.ok (.socket target)) ∨ run.outcome = .returned (.ok (.tls target))

namespace Request
variable (req : Request) (agent : Text) (token : Option Text)

/-- An answer, with the limits on a hop already applied to it. -/
def onward (left : Nat) (cur : Target) (answer : Answer) : Except (Except FollowError Opened) Target :=
  match next cur answer with
  | .error ends => .error ends
  | .ok found => match left with
    | 0 => .error (.error .tooManyHops)
    | _ + 1 => match req.retarget token found with
      | none => .error (.error .leftOrigin)
      | some target => .ok target

inductive Chain : Nat → Target → (Nat → Answer) → Run → Prop
  | tls {left cur answers} : cur.origin.isTls = true → Chain left cur answers ⟨[], .returned (.ok (.tls cur))⟩
  | unsent {left cur answers error} : cur.origin.isTls = false → req.headFor agent cur = .error error →
      Chain left cur answers ⟨[], .returned (.error error)⟩
  | over_ {left cur answers head ends} : cur.origin.isTls = false → req.headFor agent cur = .ok head →
      req.onward token left cur (answers 0) = .error ends → Chain left cur answers ⟨[⟨cur, head⟩], .returned ends⟩
  | hop {left cur answers head target rest} : cur.origin.isTls = false → req.headFor agent cur = .ok head →
      req.onward token (left + 1) cur (answers 0) = .ok target → Chain left target (fun n => answers (n + 1)) rest →
      Chain (left + 1) cur answers ⟨⟨cur, head⟩ :: rest.opens, rest.outcome⟩

theorem follow_chain (left : Nat) (cur : Target) (answers : Nat → Answer) :
    req.Chain agent token left cur answers (req.follow agent token left cur answers) := by
  induction left generalizing cur answers with
  | zero =>
    unfold follow
    split
    case isTrue secure => exact .tls secure
    case isFalse plain =>
      have plain := Bool.eq_false_iff.mpr plain
      split
      case h_1 error unsent => exact .unsent plain unsent
      case h_2 head sent =>
        split
        case h_1 ends over_ => exact .over_ plain sent (by rw [onward, over_])
        case h_2 found on => exact .over_ plain sent (by rw [onward, on])
  | succ left ih =>
    unfold follow
    split
    case isTrue secure => exact .tls secure
    case isFalse plain =>
      have plain := Bool.eq_false_iff.mpr plain
      split
      case h_1 error unsent => exact .unsent plain unsent
      case h_2 head sent =>
        split
        case h_1 ends over_ => exact .over_ plain sent (by rw [onward, over_])
        case h_2 found on =>
          dsimp only
          split
          case h_1 away => exact .over_ plain sent (by rw [onward, on]; dsimp only; rw [away])
          case h_2 target near =>
            exact .hop plain sent (by rw [onward, on]; dsimp only; rw [near]) (ih target _)

variable {answer : Answer}

theorem next_eq_ok {cur found : Target} : next cur answer = .ok found ↔
    (∃ status, answer.result = .error (.status status) ∧ isRedirect status = true) ∧
      answer.location.bind (resolveLocation cur) = some found := by
  unfold next
  constructor
  case mp =>
    intro on
    split at on
    case h_1 => cases on
    case h_2 status redirected =>
      split at on
      case isTrue redirects =>
        split at on
        case h_1 target located =>
          cases on
          exact ⟨⟨status, redirected, redirects⟩, located⟩
        case h_2 => cases on
      case isFalse => cases on
    case h_3 => cases on
  case mpr =>
    rintro ⟨⟨status, redirected, redirects⟩, located⟩
    rw [redirected]
    dsimp only
    rw [if_pos redirects, located]

variable {left : Nat}

theorem onward_eq_ok {cur target : Target} : req.onward token left cur answer = .ok target ↔
    left ≠ 0 ∧ ∃ found, next cur answer = .ok found ∧ req.retarget token found = some target := by
  unfold onward
  constructor
  case mp =>
    intro on
    split at on
    case h_1 => cases on
    case h_2 found located =>
      split at on
      case h_1 => cases on
      case h_2 =>
        split at on
        case h_1 => cases on
        case h_2 near =>
          cases on
          exact ⟨Nat.succ_ne_zero _, found, located, near⟩
  case mpr =>
    rintro ⟨some_left, found, located, near⟩
    obtain ⟨left, rfl⟩ := Nat.exists_eq_succ_of_ne_zero some_left
    rw [located]
    dsimp only
    rw [near]

variable {cur : Target}

variable {ends : Except FollowError Opened}

theorem next_eq_error
    (over_ : next cur answer = .error ends) : ends = .ok (.socket cur) ∨ ∃ error, ends = .error error := by
  unfold next at over_
  split at over_
  case h_1 =>
    cases over_
    exact .inl rfl
  case h_2 =>
    split at over_
    case isTrue =>
      split at over_
      case h_1 => cases over_
      case h_2 =>
        cases over_
        exact .inr ⟨_, rfl⟩
    case isFalse =>
      cases over_
      exact .inr ⟨_, rfl⟩
  case h_3 =>
    cases over_
    exact .inr ⟨_, rfl⟩

/-- A target with the token's pair in its query. -/
def tokened (found : Target) : Target := { found with path := token.elim found.path (withQueryPair found.path) }

theorem retarget_home {found : Target} (home : req.isHome found.origin = true) :
    req.retarget token found = some (tokened token found) := by
  unfold retarget
  rw [if_pos home]
  cases token <;> rfl

/-- A target as it is followed: one a `Location` resolved to, with no more than the token's pair
added to its query, and at home where the request has to stay there. -/
structure Moves (cur target : Target) : Prop where
  located : ∃ location found, resolveLocation cur location = some found ∧
    target = (if req.isHome found.origin then tokened token found else found)
  confined : req.sameOriginOnly = true → req.isHome target.origin = true

theorem moves_of_onward {cur target : Target} (on : req.onward token left cur answer = .ok target) :
    req.Moves token cur target := by
  obtain ⟨-, found, located, near⟩ := (onward_eq_ok req token).mp on
  obtain ⟨location, -, resolved⟩ := Option.bind_eq_some_iff.mp (next_eq_ok.mp located).2
  by_cases home : req.isHome found.origin = true
  · rw [retarget_home req token home] at near
    have eq := Option.some.inj near
    exact ⟨⟨location, found, resolved, eq.symm.trans (if_pos home).symm⟩, fun _ => eq ▸ home⟩
  · unfold retarget at near
    rw [if_neg home] at near
    split at near
    case isTrue => cases near
    case isFalse free =>
      have eq := Option.some.inj near
      exact ⟨⟨location, found, resolved, eq.symm.trans (if_neg home).symm⟩, fun held => absurd held free⟩

theorem onward_eq_error
    (over_ : req.onward token left cur answer = .error ends) : ends = .ok (.socket cur) ∨ ∃ error, ends = .error error := by
  unfold onward at over_
  split at over_
  case h_1 ends' stopped =>
    cases over_
    exact next_eq_error stopped
  case h_2 =>
    split at over_
    case h_1 =>
      cases over_
      exact .inr ⟨_, rfl⟩
    case h_2 =>
      split at over_
      case h_1 =>
        cases over_
        exact .inr ⟨_, rfl⟩
      case h_2 => cases over_

variable {req agent token}

variable {answers : Nat → Answer}

variable {run : Run}

section
variable (chain : req.Chain agent token left cur answers run)
include chain

theorem Chain.bounded
    : run.opens.length ≤ left + 1 := by
  induction chain with
  | tls => exact Nat.zero_le _
  | unsent => exact Nat.zero_le _
  | over_ => exact Nat.le_add_left 1 _
  | hop _ _ _ _ ih => exact Nat.succ_le_succ ih

theorem Chain.heads
    : ∀ o ∈ run.opens, req.headFor agent o.target = .ok o.head := by
  induction chain with
  | tls => exact fun o mem => absurd mem not_mem_nil
  | unsent => exact fun o mem => absurd mem not_mem_nil
  | over_ _ sent _ => exact fun o mem => mem_singleton.mp mem ▸ sent
  | hop _ sent _ _ ih => exact forall_mem_cons.mpr ⟨sent, ih⟩

theorem Chain.first
    : ∀ o ∈ run.opens.head?, o.target = cur := by
  cases chain with
  | tls => exact fun o mem => nomatch mem
  | unsent => exact fun o mem => nomatch mem
  | over_ => exact fun o mem => Option.mem_some.mp mem ▸ rfl
  | hop => exact fun o mem => Option.mem_some.mp mem ▸ rfl

end

theorem Chain.forall {P : Target → Prop} (moves : ∀ {cur target}, P cur → req.Moves token cur target → P target)
    (chain : req.Chain agent token left cur answers run)
    (holds : P cur) : (∀ o ∈ run.opens, P o.target) ∧ ∀ target, run.endsAt target → P target := by
  induction chain with
  | tls =>
    refine ⟨fun o mem => absurd mem not_mem_nil, ?_⟩
    rintro target (ends | ends) <;> cases ends
    exact holds
  | unsent =>
    refine ⟨fun o mem => absurd mem not_mem_nil, ?_⟩
    rintro target (ends | ends) <;> cases ends
  | over_ _ _ over_ =>
    constructor
    case left =>
      intro o mem
      rw [mem_singleton.mp mem]
      exact holds
    case right =>
      rintro target (ends | ends) <;> injection ends with ends <;> subst ends <;>
        rcases onward_eq_error _ _ over_ with eq | ⟨error, eq⟩ <;> cases eq
      exact holds
  | hop _ _ on _ ih =>
    obtain ⟨opens, ends⟩ := ih (moves holds (moves_of_onward _ _ on))
    exact ⟨forall_mem_cons.mpr ⟨holds, opens⟩, ends⟩

theorem Chain.forall_tail {P Q : Target → Prop} (moves : ∀ {cur target}, P cur → req.Moves token cur target → P target ∧ Q target)
    (chain : req.Chain agent token left cur answers run)
    (holds : P cur) : (∀ o ∈ run.opens.tail, Q o.target) ∧
      ∀ target, run.outcome = .returned (.ok (.tls target)) → target = cur ∨ Q target := by
  cases chain with
  | tls =>
    refine ⟨fun o mem => absurd mem not_mem_nil, fun target ends => ?_⟩
    cases ends
    exact .inl rfl
  | unsent => exact ⟨fun o mem => absurd mem not_mem_nil, fun target ends => by cases ends⟩
  | over_ _ _ over_ =>
    refine ⟨fun o mem => absurd mem not_mem_nil, fun target ends => ?_⟩
    injection ends with ends
    subst ends
    rcases onward_eq_error _ _ over_ with eq | ⟨error, eq⟩ <;> cases eq
  | hop _ _ on rest =>
    have both : P _ ∧ Q _ := moves holds (moves_of_onward _ _ on)
    obtain ⟨opens, ends⟩ := rest.forall (P := fun t => P t ∧ Q t) (fun held moved => moves held.1 moved) both
    exact ⟨fun o mem => (opens o mem).2, fun target ended => .inr (ends target (.inr ended)).2⟩

end Request
end PlxNative.Net
