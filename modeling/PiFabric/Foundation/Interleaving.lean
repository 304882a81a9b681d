import Mathlib

/-! Programs that call a shared world, and how their calls interleave. A program is what it calls
next and what it does with each reply. Every call is one atomic step.
-/

namespace PiFabric.Interleaving

/-- A program: a result, or a call with what follows each reply. -/
inductive Prog (C : Type) (R : C → Type) (α : Type) where
  | done (value : α)
  | call (request : C) (next : R request → Prog C R α)

namespace Prog

variable {C : Type} {R : C → Type} {α β : Type}

/-- One program after another, which has its result. -/
def bind : Prog C R α → (α → Prog C R β) → Prog C R β
  | .done value, rest => rest value
  | .call request next, rest => .call request fun reply => (next reply).bind rest

instance : Monad (Prog C R) where
  pure := .done
  bind := .bind

def send (request : C) : Prog C R (R request) :=
  .call request .done

end Prog

variable {ι W C : Type} {R : C → Type} {α β ε : Type}

/-- What a call of a thread may reply, and the world it leaves. -/
abbrev Perform (ι W C : Type) (R : C → Type) : Type :=
  ι → W → (request : C) → R request → W → Prop

structure Config (ι W C : Type) (R : C → Type) (α : Type) where
  world : W
  threads : ι → Prog C R α

/-- One call of one thread. -/
inductive Step [DecidableEq ι] (perform : Perform ι W C R)
    : Config ι W C R α → Config ι W C R α → Prop
  | call {config : Config ι W C R α} {thread : ι} {request : C} {next : R request → Prog C R α}
      {reply : R request} {world : W} (at_ : config.threads thread = .call request next)
      (performed : perform thread config.world request reply world)
      : Step perform config ⟨world, Function.update config.threads thread (next reply)⟩

abbrev Run [DecidableEq ι] (perform : Perform ι W C R)
    : Config ι W C R α → Config ι W C R α → Prop :=
  Relation.ReflTransGen (Step perform)

section
variable [DecidableEq ι] {perform : Perform ι W C R} {config config' : Config ι W C R α}

/-- The calls of some threads in turn, where a choice decides what each one does. -/
def execute {Ch : Type} (decide_ : ι → W → (request : C) → Ch → Option (R request × W))
    : Config ι W C R α → List (ι × Ch) → Option (Config ι W C R α)
  | config, [] => some config
  | config, (thread, choice) :: rest =>
      match config.threads thread with
      | .done _ => none
      | .call request next =>
          match decide_ thread config.world request choice with
          | none => none
          | some (reply, world) =>
              execute decide_ ⟨world, Function.update config.threads thread (next reply)⟩ rest

/-- What is executed is a run, by induction on the calls. -/
theorem run_of_execute {Ch : Type}
    {decide_ : ι → W → (request : C) → Ch → Option (R request × W)} {calls : List (ι × Ch)}
    (performs : ∀ {thread world request choice reply world'},
      decide_ thread world request choice = some (reply, world') →
        perform thread world request reply world')
    (h : execute decide_ config calls = some config')
    : Run perform config config' := by
  induction calls generalizing config with
  | nil =>
      cases h
      exact .refl
  | cons first rest ih =>
      obtain ⟨thread, choice⟩ := first
      unfold execute at h
      cases at_ : config.threads thread with
      | done value => simp [at_] at h
      | call request next =>
          simp only [at_] at h
          cases decided : decide_ thread config.world request choice with
          | none => simp [decided] at h
          | some result =>
              simp only [decided] at h
              exact .head (.call at_ (performs decided)) (ih h)

omit [DecidableEq ι] in
/-- A finished thread stays finished. -/
theorem Step.done [DecidableEq ι] {thread : ι} {value : α}
    (finished : config.threads thread = .done value) (step : Step perform config config')
    : config'.threads thread = .done value := by
  cases step with
  | @call other request next reply world at_ performed =>
      have apart : thread ≠ other := by
        rintro rfl
        exact absurd (finished.symm.trans at_) (by simp)
      exact (Function.update_of_ne apart ..).trans finished

theorem Run.done {thread : ι} {value : α} (finished : config.threads thread = .done value)
    (run : Run perform config config')
    : config'.threads thread = .done value := by
  induction run with
  | refl => exact finished
  | tail _ last ih => exact last.done ih

end

/-- Every call the program may make, whatever is replied, is of a kind. -/
def Prog.Only (kind : C → Prop) : Prog C R α → Prop
  | .done _ => True
  | .call request next => kind request ∧ ∀ reply, (next reply).Only kind

variable {kind : C → Prop}

theorem Prog.Only.bind {program : Prog C R α} {rest : α → Prog C R β} (first : program.Only kind)
    (second : ∀ value, (rest value).Only kind)
    : (program >>= rest).Only kind := by
  induction program with
  | done value => exact second value
  | call request next ih => exact ⟨first.1, fun reply => ih reply (first.2 reply)⟩

/-- What is left of a program makes no other calls. -/
theorem Step.only [DecidableEq ι] {perform : Perform ι W C R} {config config' : Config ι W C R α}
    {thread : ι} (step : Step perform config config') (only : (config.threads thread).Only kind)
    : (config'.threads thread).Only kind := by
  cases step with
  | @call other request next reply world at_ performed =>
      by_cases same : thread = other
      · subst same
        rw [at_] at only
        simpa using only.2 reply
      · simpa [Function.update_of_ne same] using only

theorem Run.only [DecidableEq ι] {perform : Perform ι W C R} {config config' : Config ι W C R α}
    {thread : ι} (run : Run perform config config') (only : (config.threads thread).Only kind)
    : (config'.threads thread).Only kind := by
  induction run with
  | refl => exact only
  | tail _ last ih => exact last.only ih

/-- What holds of every world, how every step changes it, and what each thread may rely on the
others to keep besides.
-/
structure Protocol (ι W C : Type) (R : C → Type) where
  perform : Perform ι W C R
  inv : W → Prop
  grows : W → W → Prop
  rely : ι → W → W → Prop
  grows_refl : ∀ world, grows world world
  grows_trans : ∀ {first second third}, grows first second → grows second third →
    grows first third
  rely_refl : ∀ thread world, rely thread world world
  rely_trans : ∀ {thread first second third}, rely thread first second →
    rely thread second third → rely thread first third

namespace Protocol

variable {protocol : Protocol ι W C R} {thread : ι}

/-- A step of one thread that keeps the invariant and what the others rely on. -/
structure Guarantees (protocol : Protocol ι W C R) (thread : ι) (world world' : W) : Prop where
  inv : protocol.inv world'
  grows : protocol.grows world world'
  others : ∀ other, other ≠ thread → protocol.rely other world world'

/-- A world the thread may find, after one it knew, by steps of the others alone. -/
structure Later (protocol : Protocol ι W C R) (thread : ι) (world world' : W) : Prop where
  inv : protocol.inv world'
  grows : protocol.grows world world'
  rely : protocol.rely thread world world'

/-- Whatever the others do, every call of the program is guaranteed, and its result is as stated
from then on.
-/
def Sound (protocol : Protocol ι W C R) (thread : ι) (post : W → α → Prop)
    : Prog C R α → W → Prop
  | .done value, world => ∀ world', protocol.Later thread world world' → post world' value
  | .call request next, world => ∀ world', protocol.Later thread world world' →
      ∀ reply world'', protocol.perform thread world' request reply world'' →
        protocol.Guarantees thread world' world''
        ∧ protocol.Sound thread post (next reply) world''

variable {post : W → α → Prop} {program : Prog C R α} {world world' : W}

theorem Later.refl (h : protocol.inv world) : protocol.Later thread world world :=
  ⟨h, protocol.grows_refl _, protocol.rely_refl _ _⟩

theorem Later.trans {third : W} (hf : protocol.Later thread world world')
    (hs : protocol.Later thread world' third)
    : protocol.Later thread world third :=
  ⟨hs.inv, protocol.grows_trans hf.grows hs.grows, protocol.rely_trans hf.rely hs.rely⟩

/-- A step that leaves the world is guaranteed. -/
theorem Guarantees.of_refl (h : protocol.inv world) : protocol.Guarantees thread world world :=
  ⟨h, protocol.grows_refl _, fun _ _ => protocol.rely_refl _ _⟩

theorem Guarantees.later (h : protocol.Guarantees thread world world') {other : ι}
    (apart : other ≠ thread)
    : protocol.Later other world world' :=
  ⟨h.inv, h.grows, h.others other apart⟩

/-- A program that was judged stays so while the others step. -/
theorem Sound.later (h : protocol.Sound thread post program world)
    (later : protocol.Later thread world world')
    : protocol.Sound thread post program world' := by
  cases program with
  | done value => exact fun _ next => h _ (later.trans next)
  | call request next => exact fun _ following => h _ (later.trans following)

/-- A weaker statement about the result, by induction on the program. -/
theorem Sound.weaken {weaker : W → α → Prop} (h : protocol.Sound thread post program world)
    (weakens : ∀ world' value, protocol.inv world' → protocol.grows world world' →
      post world' value → weaker world' value)
    : protocol.Sound thread weaker program world := by
  induction program generalizing world with
  | done value => exact fun _ later => weakens _ _ later.inv later.grows (h _ later)
  | call request next ih =>
      intro found later reply left performed
      obtain ⟨guaranteed, rest⟩ := h found later reply left performed
      refine ⟨guaranteed, ih reply rest fun last value inv grown stated => ?_⟩
      have whole := protocol.grows_trans later.grows guaranteed.grows
      exact weakens last value inv (protocol.grows_trans whole grown) stated

/-- One program after another, by induction on the first. What the first returned is as stated
for as long as only the others step.
-/
theorem Sound.bind {between : W → α → Prop} {after : W → β → Prop} {rest : α → Prog C R β}
    (known : protocol.inv world) (first : protocol.Sound thread between program world)
    (second : ∀ world' value, protocol.inv world' → protocol.grows world world' →
      (∀ found, protocol.Later thread world' found → between found value) →
      protocol.Sound thread after (rest value) world')
    : protocol.Sound thread after (program >>= rest) world := by
  induction program generalizing world with
  | done value => exact second _ _ known (protocol.grows_refl _) first
  | call request next ih =>
      intro found later reply left performed
      obtain ⟨guaranteed, remaining⟩ := first found later reply left performed
      refine ⟨guaranteed, ih reply guaranteed.inv remaining fun last value inv grown stated => ?_⟩
      have whole := protocol.grows_trans later.grows guaranteed.grows
      exact second last value inv (protocol.grows_trans whole grown) stated

/-- A function of the result, by induction on the program. -/
theorem Sound.map {after : W → β → Prop} {f : α → β}
    (h : protocol.Sound thread (fun found value => after found (f value)) program world)
    : protocol.Sound thread after (f <$> program) world := by
  induction program generalizing world with
  | done value => exact h
  | call request next ih =>
      intro found later reply left performed
      obtain ⟨guaranteed, rest⟩ := h found later reply left performed
      exact ⟨guaranteed, ih reply rest⟩

/-- After a program that may throw comes the rest, unless it threw. -/
theorem Sound.try_ {between : W → Except ε α → Prop} {after : W → Except ε β → Prop}
    {first : ExceptT ε (Prog C R) α} {rest : α → ExceptT ε (Prog C R) β}
    (known : protocol.inv world) (sound : protocol.Sound thread between first.run world)
    (returned : ∀ world' value, protocol.inv world' → protocol.grows world world' →
      between world' (.ok value) → protocol.Sound thread after (rest value).run world')
    (thrown : ∀ world' error, protocol.inv world' → protocol.grows world world' →
      between world' (.error error) → after world' (.error error))
    : protocol.Sound thread after (first >>= rest).run world := by
  refine Sound.bind known sound fun world' outcome inv grown stated => ?_
  cases outcome with
  | ok value => exact returned _ value inv grown (stated _ (.refl inv))
  | error error =>
      intro found later
      exact thrown _ error later.inv (protocol.grows_trans grown later.grows) (stated _ later)

/-- Every thread is judged so. -/
def AllSound (protocol : Protocol ι W C R) (post : ι → W → α → Prop)
    (config : Config ι W C R α) : Prop :=
  protocol.inv config.world
    ∧ ∀ thread, protocol.Sound thread (post thread) (config.threads thread) config.world

variable [DecidableEq ι] {posts : ι → W → α → Prop} {config config' : Config ι W C R α}

theorem AllSound.step (h : protocol.AllSound posts config)
    (step : Step protocol.perform config config')
    : protocol.AllSound posts config' ∧ protocol.grows config.world config'.world := by
  cases step with
  | @call thread request next reply world at_ performed =>
      have sound := h.2 thread
      rw [at_] at sound
      obtain ⟨guaranteed, rest⟩ := sound config.world (.refl h.1) reply world performed
      refine ⟨⟨guaranteed.inv, fun other => ?_⟩, guaranteed.grows⟩
      by_cases same : other = thread
      · subst same
        simpa using rest
      · simpa [Function.update_of_ne same] using (h.2 other).later (guaranteed.later same)

/-- Threads that are judged sound keep the invariant over every run. -/
theorem AllSound.run (h : protocol.AllSound posts config)
    (run : Run protocol.perform config config')
    : protocol.AllSound posts config' ∧ protocol.grows config.world config'.world := by
  induction run with
  | refl => exact ⟨h, protocol.grows_refl _⟩
  | tail _ last ih =>
      obtain ⟨sound, grown⟩ := ih.1.step last
      exact ⟨sound, protocol.grows_trans ih.2 grown⟩

omit [DecidableEq ι] in
/-- What a finished thread returned is as stated. -/
theorem AllSound.finished (h : protocol.AllSound posts config) {value : α}
    (finished : config.threads thread = .done value)
    : posts thread config.world value := by
  have sound := h.2 thread
  rw [finished] at sound
  exact sound _ (.refl h.1)

end Protocol

end PiFabric.Interleaving
