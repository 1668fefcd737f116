import Mathlib.Logic.Function.Basic
import Mathlib.Logic.Relation

/-! Clients of one shared service. A client is a tree of calls that goes on with the reply
of each, and many of them run at once, one call at a time in any order. What a client is
proved to ensure at every growth of the shared world holds in every such run. -/
namespace PlxNative.Service
open Function

variable {Call : Type} {Reply : Call → Type} {ε α β : Type}

inductive Task {Call : Type} (Reply : Call → Type) (ε α : Type) where
  | done (a : α)
  | fail (e : ε)
  | call (c : Call) (next : Reply c → Task Reply ε α)

namespace Task

def bind : Task Reply ε α → (α → Task Reply ε β) → Task Reply ε β
  | done a, f => f a
  | fail e, _ => fail e
  | call c next, f => call c (fun reply => (next reply).bind f)

instance : Monad (Task Reply ε) where
  pure := done
  bind := bind

def ofExcept : Except ε α → Task Reply ε α
  | .ok a => done a
  | .error e => fail e

/-- The outcome, with a failure as a value. -/
def attempt : Task Reply ε α → Task Reply ε (Except ε α)
  | done a => done (.ok a)
  | fail e => done (.error e)
  | call c next => call c (fun reply => (next reply).attempt)

/-- The outcome of a client that makes no further call. -/
def outcome? : Task Reply ε α → Option (Except ε α)
  | done a => some (.ok a)
  | fail e => some (.error e)
  | call _ _ => none

end Task

/-- The shared world answers calls; a client remembers something of its own. -/
structure Server {Call : Type} (Reply : Call → Type) (W L : Type) where
  serves : W → (c : Call) → Reply c → W → Prop
  track : L → (c : Call) → Reply c → L

/-- What the clients keep true of the world, and how it may grow under them. -/
structure Pact (W : Type) where
  good : W → Prop
  grows : W → W → Prop
  refl : ∀ w, grows w w
  trans : ∀ {u v w}, grows u v → grows v w → grows u w

section
variable {W L : Type} (S : Server Reply W L) (P : Pact W)

/-- The world may grow before each call. Whatever the call then gets for a reply, the
client has kept the pact, and goes on to `Q`. -/
def Task.Ensures (Q : L → Except ε α → W → Prop) : Task Reply ε α → L → W → Prop
  | .done a, l, w => Q l (.ok a) w
  | .fail e, l, w => Q l (.error e) w
  | .call c next, l, w => ∀ u, P.grows w u → P.good u → ∀ reply v, S.serves u c reply v →
      P.grows u v ∧ P.good v ∧ (next reply).Ensures Q (S.track l c reply) v

/-- The outcome stays right while the world grows. -/
def Stable (Q : L → Except ε α → W → Prop) : Prop :=
  ∀ l outcome w u, P.grows w u → P.good u → Q l outcome w → Q l outcome u

variable {S P} {Q Q' : L → Except ε α → W → Prop} {task : Task Reply ε α} {l : L} {w u : W}

theorem Task.Ensures.stable (kept : Stable P Q) (ensures : task.Ensures S P Q l w) (grows : P.grows w u)
    (good : P.good u) : task.Ensures S P Q l u := by
  cases task with
  | done a => exact kept l (.ok a) w u grows good ensures
  | fail e => exact kept l (.error e) w u grows good ensures
  | call c next =>
    intro v later good_v reply w' served
    exact ensures v (P.trans grows later) good_v reply w' served

theorem Task.Ensures.weaken (implies : ∀ l outcome u, P.grows w u → P.good u → Q l outcome u → Q' l outcome u)
    (good : P.good w) (ensures : task.Ensures S P Q l w) : task.Ensures S P Q' l w := by
  induction task generalizing l w with
  | done a => exact implies l (.ok a) w (P.refl w) good ensures
  | fail e => exact implies l (.error e) w (P.refl w) good ensures
  | call c next ih =>
    intro u grows good_u reply v served
    obtain ⟨grows_v, good_v, rest⟩ := ensures u grows good_u reply v served
    have grown : P.grows w v := P.trans grows grows_v
    exact ⟨grows_v, good_v, ih reply (fun l outcome x later => implies l outcome x (P.trans grown later)) good_v rest⟩

/-- What is asked of the first of two clients in a row. -/
def After (S : Server Reply W L) (P : Pact W) (f : α → Task Reply ε β) (Q : L → Except ε β → W → Prop) :
    L → Except ε α → W → Prop
  | l, .ok a, w => (f a).Ensures S P Q l w
  | l, .error e, w => Q l (.error e) w

variable {f : α → Task Reply ε β}

theorem Task.Ensures.bind {Q : L → Except ε β → W → Prop}
    (ensures : task.Ensures S P (After S P f Q) l w) : (task >>= f).Ensures S P Q l w := by
  induction task generalizing l w with
  | done a => exact ensures
  | fail e => exact ensures
  | call c next ih =>
    intro u grows good_u reply v served
    obtain ⟨grows_v, good_v, rest⟩ := ensures u grows good_u reply v served
    exact ⟨grows_v, good_v, ih reply rest⟩

theorem Task.Ensures.attempt {Q : L → Except ε (Except ε α) → W → Prop}
    (ensures : task.Ensures S P (fun l outcome w => Q l (.ok outcome) w) l w) : task.attempt.Ensures S P Q l w := by
  induction task generalizing l w with
  | done a => exact ensures
  | fail e => exact ensures
  | call c next ih =>
    intro u grows good_u reply v served
    obtain ⟨grows_v, good_v, rest⟩ := ensures u grows good_u reply v served
    exact ⟨grows_v, good_v, ih reply rest⟩

structure Silent (S : Server Reply W L) (P : Pact W) (c : Call) : Prop where
  keeps : ∀ w reply u, P.good w → S.serves w c reply u → P.grows w u ∧ P.good u
  forgets : ∀ l reply, S.track l c reply = l

/-- A client of such calls only, that hands back no more than `R` allows. -/
def Task.Quiet (S : Server Reply W L) (P : Pact W) (R : α → Prop) : Task Reply ε α → Prop
  | .done a => R a
  | .fail _ => True
  | .call c next => Silent S P c ∧ ∀ reply, (next reply).Quiet S P R

variable {R : α → Prop}

theorem Task.Quiet.ensures (quiet : task.Quiet S P R) (good : P.good w)
    (hands : ∀ a u, P.grows w u → P.good u → R a → Q l (.ok a) u)
    (fails : ∀ e u, P.grows w u → P.good u → Q l (.error e) u) : task.Ensures S P Q l w := by
  induction task generalizing w with
  | done a => exact hands a w (P.refl w) good quiet
  | fail e => exact fails e w (P.refl w) good
  | call c next ih =>
    intro u grows good_u reply v served
    obtain ⟨grows_v, good_v⟩ := quiet.1.keeps u reply v good_u served
    refine ⟨grows_v, good_v, ?_⟩
    rw [quiet.1.forgets]
    have grown : P.grows w v := P.trans grows grows_v
    exact ih reply (quiet.2 reply) good_v (fun a x later => hands a x (P.trans grown later))
      (fun e x later => fails e x (P.trans grown later))

theorem Task.Quiet.bind {R' : β → Prop} (quiet : task.Quiet S P R)
    (next : ∀ a, R a → (f a).Quiet S P R') : (task >>= f).Quiet S P R' := by
  induction task with
  | done a => exact next a quiet
  | fail e => trivial
  | call c rest ih => exact ⟨quiet.1, fun reply => ih reply (quiet.2 reply)⟩

theorem Task.Quiet.weaken {R R' : α → Prop} (quiet : task.Quiet S P R) (implies : ∀ a, R a → R' a) :
    task.Quiet S P R' := by
  induction task with
  | done a => exact implies a quiet
  | fail e => trivial
  | call c rest ih => exact ⟨quiet.1, fun reply => ih reply (quiet.2 reply)⟩

theorem Task.Quiet.attempt (quiet : task.Quiet S P R) : task.attempt.Quiet S P (fun _ => True) := by
  induction task with
  | done a => trivial
  | fail e => trivial
  | call c rest ih => exact ⟨quiet.1, fun reply => ih reply (quiet.2 reply)⟩

/-- Only an outcome that is no failure matters. -/
def IfDone (V : L → α → W → Prop) : L → Except ε α → W → Prop
  | l, .ok a, w => V l a w
  | _, .error _, _ => True

theorem IfDone.stable {V : L → α → W → Prop} (kept : ∀ l a w u, P.grows w u → P.good u → V l a w → V l a u) :
    Stable P (IfDone V : L → Except ε α → W → Prop) := by
  intro l outcome w u grows good holds
  cases outcome with
  | error e => trivial
  | ok a => exact kept l a w u grows good holds

theorem Task.Quiet.then {V : L → β → W → Prop} (quiet : task.Quiet S P R)
    (good : P.good w) (next : ∀ a u, P.grows w u → P.good u → R a → (f a).Ensures S P (IfDone V) l u) :
    (task >>= f).Ensures S P (IfDone V) l w :=
  Task.Ensures.bind (quiet.ensures good next (fun _ _ _ _ => trivial))

theorem Task.Ensures.then {V : L → α → W → Prop} {V' : L → β → W → Prop}
    (ensures : task.Ensures S P (IfDone V) l w) (good : P.good w)
    (next : ∀ l a u, P.grows w u → P.good u → V l a u → (f a).Ensures S P (IfDone V') l u) :
    (task >>= f).Ensures S P (IfDone V') l w := by
  refine Task.Ensures.bind (ensures.weaken ?_ good)
  intro l outcome u grows good_u holds
  cases outcome with
  | error e => trivial
  | ok a => exact next l a u grows good_u holds

end

section
variable {W L Request ι : Type}

structure Session (Reply : Call → Type) (ε α Request L : Type) where
  request : Request
  memory : L
  rest : Task Reply ε α

structure Answer (ε α Request L : Type) where
  request : Request
  memory : L
  outcome : Except ε α

/-- The world, the clients, and a record of what was asked and answered. -/
structure System (Reply : Call → Type) (ε α Request L W ι : Type) where
  world : W
  sessions : ι → Option (Session Reply ε α Request L)
  asked : List Request
  answers : List (Answer ε α Request L)

variable [DecidableEq ι] (S : Server Reply W L) (start : L) (serve : Request → Task Reply ε α)

/-- An idle client takes a request, a client makes its next call, or a client answers. -/
inductive Step : System Reply ε α Request L W ι → System Reply ε α Request L W ι → Prop
  | take {s : System Reply ε α Request L W ι} (i : ι) (request : Request) (idle : s.sessions i = none) :
      Step s { s with
        sessions := Function.update s.sessions i (some ⟨request, start, serve request⟩)
        asked := s.asked ++ [request] }
  | call {s : System Reply ε α Request L W ι} (i : ι) {request : Request} {memory : L} {c : Call}
      {next : Reply c → Task Reply ε α} {reply : Reply c} {w : W}
      (working : s.sessions i = some ⟨request, memory, .call c next⟩) (served : S.serves s.world c reply w) :
      Step s { s with
        world := w
        sessions := Function.update s.sessions i (some ⟨request, S.track memory c reply, next reply⟩) }
  | answer {s : System Reply ε α Request L W ι} (i : ι) {session : Session Reply ε α Request L} {outcome : Except ε α}
      (working : s.sessions i = some session) (over_ : session.rest.outcome? = some outcome) :
      Step s { s with
        sessions := Function.update s.sessions i none
        answers := s.answers ++ [⟨session.request, session.memory, outcome⟩] }

def System.idle (w : W) : System Reply ε α Request L W ι := ⟨w, fun _ => none, [], []⟩

def Reached (w : W) (s : System Reply ε α Request L W ι) : Prop :=
  Relation.ReflTransGen (Step S start serve) (System.idle w) s

/-- Every client is on its way to what it ensures, and every answer kept it. -/
structure Ensured (S : Server Reply W L) (P : Pact W) (Q : Request → L → Except ε α → W → Prop)
    (s : System Reply ε α Request L W ι) : Prop where
  good : P.good s.world
  sessions : ∀ i session, s.sessions i = some session →
    session.rest.Ensures S P (Q session.request) session.memory s.world
  answers : ∀ answer ∈ s.answers, Q answer.request answer.memory answer.outcome s.world

variable {S start serve} {P : Pact W} {Q : Request → L → Except ε α → W → Prop} {w : W}
  {s s' : System Reply ε α Request L W ι}

theorem Task.Ensures.outcome {task : Task Reply ε α} {Q : L → Except ε α → W → Prop} {l : L} {outcome : Except ε α}
    (ensures : task.Ensures S P Q l w) (over_ : task.outcome? = some outcome) : Q l outcome w := by
  cases task with
  | done a =>
    cases over_
    exact ensures
  | fail e =>
    cases over_
    exact ensures
  | call c next => cases over_

theorem Step.asked (step : Step S start serve s s') : ∀ request ∈ s.asked, request ∈ s'.asked := by
  intro request mem
  cases step with
  | take i other idle => exact List.mem_append_left _ mem
  | call i working served => exact mem
  | answer i working over_ => exact mem

theorem Ensured.step (stable : ∀ request, Stable P (Q request))
    (begins : ∀ request ∈ s'.asked, ∀ w, P.good w → (serve request).Ensures S P (Q request) start w)
    (ensured : Ensured S P Q s) (step : Step S start serve s s') : Ensured S P Q s' := by
  cases step with
  | take i request idle =>
    refine ⟨ensured.good, ?_, ensured.answers⟩
    intro j session held
    by_cases eq : j = i
    · subst eq
      simp only [update_self] at held
      cases held
      exact begins request (List.mem_append_right _ (List.mem_singleton_self _)) s.world ensured.good
    · simp only [update_of_ne eq] at held
      exact ensured.sessions j session held
  | @call i request memory c next reply v working served =>
    obtain ⟨grows, good, rest⟩ := ensured.sessions i _ working s.world (P.refl _) ensured.good reply v served
    refine ⟨good, ?_, ?_⟩
    · intro j session held
      by_cases eq : j = i
      · subst eq
        simp only [update_self] at held
        cases held
        exact rest
      · simp only [update_of_ne eq] at held
        exact (ensured.sessions j session held).stable (stable _) grows good
    · intro answer mem
      exact stable _ _ _ _ _ grows good (ensured.answers answer mem)
  | answer i working over_ =>
    refine ⟨ensured.good, ?_, ?_⟩
    · intro j session held
      by_cases eq : j = i
      · subst eq
        simp only [update_self] at held
        cases held
      · simp only [update_of_ne eq] at held
        exact ensured.sessions j session held
    · exact List.forall_mem_append.mpr ⟨ensured.answers, List.forall_mem_singleton.mpr ((ensured.sessions i _ working).outcome over_)⟩

theorem Reached.ensured (reached : Reached S start serve w s) (stable : ∀ request, Stable P (Q request)) (good : P.good w)
    (begins : ∀ request ∈ s.asked, ∀ w, P.good w → (serve request).Ensures S P (Q request) start w) :
    Ensured S P Q s := by
  induction reached with
  | refl => exact ⟨good, nofun, nofun⟩
  | tail _ step ih =>
    -- what was asked earlier is still on record
    exact (ih (fun request mem => begins request (step.asked request mem))).step stable begins step

section

/-- A client alone for some calls, with its replies from `respond`. -/
def Session.advance (track : L → (c : Call) → Reply c → L) (respond : W → (c : Call) → Reply c × W) :
    Nat → Session Reply ε α Request L → W → Session Reply ε α Request L × W
  | 0, session, w => (session, w)
  | calls + 1, session, w => match session.rest with
    | .call c next => match respond w c with
      | (reply, w') => advance track respond calls ⟨session.request, track session.memory c reply, next reply⟩ w'
    | _ => (session, w)

/-- One client has the session, and the others are as they were. -/
def System.running (s : System Reply ε α Request L W ι) (i : ι) (after : Session Reply ε α Request L × W) :
    System Reply ε α Request L W ι :=
  { s with world := after.2, sessions := Function.update s.sessions i (some after.1) }

variable {respond : W → (c : Call) → Reply c × W} {i : ι}

theorem Reached.advance (honest : ∀ w c, S.serves w c (respond w c).1 (respond w c).2) (calls : Nat)
    {session : Session Reply ε α Request L} {v : W} (reached : Reached S start serve w (s.running i (session, v))) :
    Reached S start serve w (s.running i (session.advance S.track respond calls v)) := by
  induction calls generalizing session v with
  | zero => exact reached
  | succ calls ih =>
    obtain ⟨request, memory, rest⟩ := session
    cases rest with
    | done a => exact reached
    | fail e => exact reached
    | call c next =>
      have held : (s.running i (⟨request, memory, .call c next⟩, v)).sessions i = some ⟨request, memory, .call c next⟩ :=
        update_self ..
      have step := Relation.ReflTransGen.tail reached (Step.call i held (honest v c))
      unfold System.running at step
      rw [update_idem] at step
      exact ih step

theorem Session.advance_request (track : L → (c : Call) → Reply c → L) (respond : W → (c : Call) → Reply c × W) (calls : Nat)
    (session : Session Reply ε α Request L) (v : W) : (session.advance track respond calls v).1.request = session.request := by
  induction calls generalizing session v with
  | zero => rfl
  | succ calls ih =>
    obtain ⟨request, memory, rest⟩ := session
    cases rest with
    | done a => rfl
    | fail e => rfl
    | call c next => exact ih _ _

theorem Reached.begun (honest : ∀ w c, S.serves w c (respond w c).1 (respond w c).2) (reached : Reached S start serve w s)
    (i : ι) (idle : s.sessions i = none) (request : Request) (calls : Nat) :
    Reached S start serve w ({ s with asked := s.asked ++ [request] }.running i
      ((Session.mk request start (serve request)).advance S.track respond calls s.world)) :=
  Reached.advance honest calls (Relation.ReflTransGen.tail reached (Step.take i request idle))

theorem Reached.alone (honest : ∀ w c, S.serves w c (respond w c).1 (respond w c).2) (reached : Reached S start serve w s)
    (i : ι) (idle : s.sessions i = none) (request : Request) (calls : Nat) {v : W} {l : L} {outcome : Except ε α}
    {after : Session Reply ε α Request L × W}
    (advanced : (Session.mk request start (serve request)).advance S.track respond calls s.world = after)
    (over_ : (after.2, after.1.memory, after.1.rest.outcome?) = (v, l, some outcome)) :
    Reached S start serve w
      { s with world := v, asked := s.asked ++ [request], answers := s.answers ++ [⟨request, l, outcome⟩] } := by
  have begun := Reached.begun honest reached i idle request calls
  have asked := Session.advance_request S.track respond calls ⟨request, start, serve request⟩ s.world
  rw [advanced] at begun asked
  obtain ⟨session, world⟩ := after
  obtain ⟨about, memory, rest⟩ := session
  simp only [Prod.mk.injEq] at over_
  obtain ⟨rfl, rfl, over_⟩ := over_
  cases asked
  have back : Function.update (Function.update s.sessions i (some ⟨request, memory, rest⟩)) i none = s.sessions := by
    rw [update_idem, ← idle]
    exact update_eq_self i s.sessions
  have held : ({ s with asked := s.asked ++ [request] }.running i (⟨request, memory, rest⟩, world)).sessions i =
      some ⟨request, memory, rest⟩ := update_self ..
  have step := Relation.ReflTransGen.tail begun (Step.answer i held over_)
  unfold System.running at step
  rw [back] at step
  exact step

end
end
end PlxNative.Service
