import Mathlib

/-! Programs on a state, any write of which may fail, before or after it took effect, or be cut
short by a crash. A program is judged by what holds of the state when it returns, and wherever it
may stop.
-/

namespace PiFabric.Faulty

inductive Fault
  | unwritten
  /-- It fails, but has taken effect. -/
  | visible
  | crashBefore
  | crashAfter
  deriving DecidableEq

inductive Stop (ε : Type)
  | threw (error : ε)
  | crashed
  deriving DecidableEq

/-- A program, run with what befalls its writes in turn; it returns what is left of that. -/
def Proc (σ ε α : Type) : Type :=
  List (Option Fault) → σ → Except (Stop ε) α × σ × List (Option Fault)

variable {σ ε α β : Type}

namespace Proc

def return_ (value : α) : Proc σ ε α :=
  fun faults s => (.ok value, s, faults)

def andThen (first : Proc σ ε α) (second : α → Proc σ ε β) : Proc σ ε β :=
  fun faults s =>
    match first faults s with
    | (.ok value, s', rest) => second value rest s'
    | (.error stop, s', rest) => (.error stop, s', rest)

instance : Monad (Proc σ ε) where
  pure := return_
  bind := andThen

def get : Proc σ ε σ :=
  fun faults s => (.ok s, s, faults)

def modify (change : σ → σ) : Proc σ ε Unit :=
  fun faults s => (.ok (), change s, faults)

def throw (error : ε) : Proc σ ε α :=
  fun faults s => (.error (.threw error), s, faults)

def write (error : ε) (change : σ → σ) : Proc σ ε Unit :=
  fun faults s =>
    match faults with
    | [] => (.ok (), change s, [])
    | none :: rest => (.ok (), change s, rest)
    | some .unwritten :: rest => (.error (.threw error), s, rest)
    | some .visible :: rest => (.error (.threw error), change s, rest)
    | some .crashBefore :: rest => (.error .crashed, s, rest)
    | some .crashAfter :: rest => (.error .crashed, change s, rest)

/-- What is thrown is handled; a crash is not. -/
def attempt (body : Proc σ ε α) (handler : ε → Proc σ ε α) : Proc σ ε α :=
  fun faults s =>
    match body faults s with
    | (.error (.threw error), s', rest) => handler error rest s'
    | other => other

def each (body : β → Proc σ ε Unit) : List β → Proc σ ε Unit
  | [] => pure ()
  | item :: rest => do
      body item
      each body rest

end Proc

/-- Nothing befalls the writes of a calm run. -/
def Allowed (calm : Bool) (faults : List (Option Fault)) : Prop :=
  calm = true → faults = []

def Leaves (calm : Bool) (post : α → σ → Prop) (stop : Stop ε → σ → Prop)
    (result : Except (Stop ε) α × σ × List (Option Fault)) : Prop :=
  Allowed calm result.2.2
    ∧ match result.1 with
      | .ok value => post value result.2.1
      | .error error => stop error result.2.1

/-- Whatever befalls the writes, the program returns as `post` says, or stops as `stop` does. -/
def Ends (calm : Bool) (post : α → σ → Prop) (stop : Stop ε → σ → Prop) (program : Proc σ ε α)
    (s : σ) : Prop :=
  ∀ faults, Allowed calm faults → Leaves calm post stop (program faults s)

variable {calm : Bool} {post post' : α → σ → Prop} {stop stop' : Stop ε → σ → Prop}
  {program : Proc σ ε α} {s : σ}

theorem Ends.mono (h : Ends calm post stop program s) (returns : ∀ value s, post value s →
      post' value s)
    (stops : ∀ error s, stop error s → stop' error s)
    : Ends calm post' stop' program s := by
  intro faults allowed
  obtain ⟨left, outcome⟩ := h faults allowed
  refine ⟨left, ?_⟩
  cases ended : (program faults s).1 with
  | ok value => simpa only [ended] using returns value _ (by simpa only [ended] using outcome)
  | error error => simpa only [ended] using stops error _ (by simpa only [ended] using outcome)

theorem ends_pure {value : α} (h : post value s)
    : Ends calm post stop (pure value : Proc σ ε α) s :=
  fun _ allowed => ⟨allowed, h⟩

theorem ends_get {post : σ → σ → Prop} (h : post s s)
    : Ends calm post stop (Proc.get : Proc σ ε σ) s :=
  fun _ allowed => ⟨allowed, h⟩

theorem ends_modify {post : Unit → σ → Prop} {change : σ → σ} (h : post () (change s))
    : Ends calm post stop (Proc.modify change : Proc σ ε Unit) s :=
  fun _ allowed => ⟨allowed, h⟩

theorem ends_throw {error : ε} (h : stop (.threw error) s)
    : Ends calm post stop (Proc.throw error : Proc σ ε α) s :=
  fun _ allowed => ⟨allowed, h⟩

/-- A write takes effect, or the program may stop before and after that. -/
theorem ends_write {post : Unit → σ → Prop} {error : ε} {change : σ → σ}
    (h : post () (change s))
    (stops : calm = false → ∀ s', s' = s ∨ s' = change s →
      stop (.threw error) s' ∧ stop .crashed s')
    : Ends calm post stop (Proc.write error change) s := by
  intro faults allowed
  cases faults with
  | nil => exact ⟨allowed, h⟩
  | cons fault rest =>
      have wild : calm = false := by
        cases calm with
        | false => rfl
        | true => cases allowed rfl
      have left : Allowed calm rest := fun is => absurd (wild.symm.trans is) (by simp)
      cases fault with
      | none => exact ⟨left, h⟩
      | some fault =>
          cases fault with
          | unwritten => exact ⟨left, (stops wild s (.inl rfl)).1⟩
          | visible => exact ⟨left, (stops wild _ (.inr rfl)).1⟩
          | crashBefore => exact ⟨left, (stops wild s (.inl rfl)).2⟩
          | crashAfter => exact ⟨left, (stops wild _ (.inr rfl)).2⟩

theorem Ends.bind {after : β → σ → Prop} {rest : α → Proc σ ε β}
    (first : Ends calm (fun value s' => Ends calm after stop (rest value) s') stop program s)
    : Ends calm after stop (program >>= rest) s := by
  intro faults allowed
  obtain ⟨left, outcome⟩ := first faults allowed
  show Leaves calm after stop (Proc.andThen program rest faults s)
  unfold Proc.andThen
  rcases ended : program faults s with ⟨_ | value, s', remaining⟩
  · simp only [ended] at left outcome
    exact ⟨left, outcome⟩
  · simp only [ended] at left outcome
    exact outcome remaining left

theorem Ends.attempt {handler : ε → Proc σ ε α}
    (body : Ends calm post (fun thrown s' => match thrown with
      | .threw error => Ends calm post stop (handler error) s'
      | .crashed => stop .crashed s') program s)
    : Ends calm post stop (program.attempt handler) s := by
  intro faults allowed
  obtain ⟨left, outcome⟩ := body faults allowed
  unfold Proc.attempt
  rcases ended : program faults s with ⟨thrown | value, s', remaining⟩
  · simp only [ended] at left outcome
    cases thrown with
    | threw error => exact outcome remaining left
    | crashed => exact ⟨left, outcome⟩
  · simp only [ended] at left outcome
    exact ⟨left, outcome⟩

/-- A loop, by what holds before each of its rounds, by induction on what is left of it. -/
theorem ends_each {body : β → Proc σ ε Unit} {items : List β} (inv : List β → σ → Prop)
    (round : ∀ item rest s, inv (item :: rest) s →
      Ends calm (fun _ s' => inv rest s') stop (body item) s)
    (start : inv items s)
    : Ends calm (fun _ s' => inv [] s') stop (Proc.each body items) s := by
  induction items generalizing s with
  | nil => exact ends_pure start
  | cons item rest ih => exact .bind ((round item rest s start).mono (fun _ _ => ih) fun _ _ => id)

section
variable (h : Ends calm post stop program s) {faults left : List (Option Fault)} {s' : σ}
include h

theorem Ends.returned {value : α} (allowed : Allowed calm faults)
    (ran : program faults s = (.ok value, s', left))
    : post value s' := by
  simpa only [ran] using (h faults allowed).2

theorem Ends.stopped {error : Stop ε} (allowed : Allowed calm faults)
    (ran : program faults s = (.error error, s', left))
    : stop error s' := by
  simpa only [ran] using (h faults allowed).2

end

end PiFabric.Faulty
