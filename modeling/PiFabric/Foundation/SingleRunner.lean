import Mathlib
import PiFabric.Foundation.Interleaving

/-! Requests served by at most one runner at a time. A request that finds no runner starts one;
otherwise it waits for the runner's next round. A runner ends when it sees nothing waiting or when
a round fails.
-/

namespace PiFabric.SingleRunner

/-- Where the runner stands: `returned` and `failing` before its loop has looked at the outcome of
its round, `ended` after the loop and before callers can see it.
-/
inductive Phase where
  | idle
  | working
  | returned
  | failing
  | ended
deriving DecidableEq, Repr

/-- The requests that wait, those that the present round has taken, and those that are settled: a
round that took them has finished, or a round has failed after they were made.
-/
structure Runner (τ : Type*) where
  phase : Phase
  pending : List τ
  taken : List τ
  settled : List τ

variable {τ : Type*}

namespace Runner

def idle : Runner τ := ⟨.idle, [], [], []⟩

def Known (runner : Runner τ) (request : τ) : Prop :=
  request ∈ runner.pending ∨ request ∈ runner.taken ∨ request ∈ runner.settled

def ask (runner : Runner τ) (request : τ) : Runner τ :=
  { runner with pending := runner.pending ++ [request] }

def take (runner : Runner τ) : Runner τ :=
  { runner with phase := .working, pending := [], taken := runner.pending }

/-- The round is over. -/
def finish (runner : Runner τ) : Runner τ :=
  { runner with phase := .returned, taken := [], settled := runner.settled ++ runner.taken }

/-- The round fails, and with it the runner: nothing that waits now is served by it. -/
def fail (runner : Runner τ) : Runner τ :=
  { runner with
    phase := .failing
    taken := []
    settled := runner.settled ++ runner.taken ++ runner.pending }

def inPhase (runner : Runner τ) (phase : Phase) : Runner τ :=
  { runner with phase }

end Runner

open Runner

/-- The moves of a runner and its callers, where no request is made while the runner ends. -/
inductive Step : Runner τ → Runner τ → Prop where
  | start {runner} (request : τ) (free : runner.phase = .idle)
    : Step runner (runner.ask request).take
  | wait {runner} (request : τ) (live : runner.phase = .working ∨ runner.phase = .returned)
    : Step runner (runner.ask request)
  | finish {runner} (busy : runner.phase = .working) : Step runner runner.finish
  | fail {runner} (busy : runner.phase = .working) : Step runner runner.fail
  | again {runner} (done : runner.phase = .returned) : Step runner runner.take
  | last {runner} (done : runner.phase = .returned) (none_ : runner.pending = [])
    : Step runner (runner.inPhase .ended)
  | stop {runner} (failed : runner.phase = .failing) : Step runner (runner.inPhase .ended)
  | clear {runner} (done : runner.phase = .ended) : Step runner (runner.inPhase .idle)

/-- Only a round takes requests, and where no runner will look again every waiting request is
settled.
-/
structure Sound (runner : Runner τ) : Prop where
  taken : runner.phase ≠ .working → runner.taken = []
  waiting : runner.phase ≠ .working → runner.phase ≠ .returned →
    ∀ request ∈ runner.pending, request ∈ runner.settled

theorem idle_sound : Sound (idle : Runner τ) :=
  ⟨fun _ => rfl, fun _ _ _ member => absurd member List.not_mem_nil⟩

/-- Every move keeps a runner sound. -/
theorem Sound.step {runner next : Runner τ} (sound : Sound runner) (step : Step runner next)
    : Sound next := by
  cases step with
  | start request free => exact ⟨fun busy => absurd rfl busy, fun busy => absurd rfl busy⟩
  | wait request live =>
      refine ⟨sound.taken, fun busy done => ?_⟩
      exact absurd live (not_or.mpr ⟨busy, done⟩)
  | finish busy => exact ⟨fun _ => rfl, fun _ done => absurd rfl done⟩
  | fail busy => exact ⟨fun _ => rfl, fun _ _ request member => List.mem_append_right _ member⟩
  | again done => exact ⟨fun busy => absurd rfl busy, fun busy => absurd rfl busy⟩
  | last done none_ =>
      refine ⟨fun _ => sound.taken (by simp [done]), fun _ _ request member => ?_⟩
      exact absurd (none_ ▸ member : request ∈ []) List.not_mem_nil
  | stop failed =>
      exact ⟨fun _ => sound.taken (by simp [failed]),
        fun _ _ => sound.waiting (by simp [failed]) (by simp [failed])⟩
  | clear done =>
      exact ⟨fun _ => sound.taken (by simp [done]),
        fun _ _ => sound.waiting (by simp [done]) (by simp [done])⟩

/-- No move forgets a request: a round takes what waits only where no round has taken anything. -/
theorem Sound.known {runner next : Runner τ} {request : τ} (sound : Sound runner)
    (step : Step runner next) (known : runner.Known request)
    : next.Known request := by
  cases step with
  | start other free =>
      have none_ := sound.taken (by simp [free])
      rcases known with pending | taken | settled
      · exact Or.inr (Or.inl (List.mem_append_left _ pending))
      · exact absurd (none_ ▸ taken : request ∈ []) List.not_mem_nil
      · exact Or.inr (Or.inr settled)
  | wait other live =>
      rcases known with pending | known
      · exact Or.inl (List.mem_append_left _ pending)
      · exact Or.inr known
  | finish busy =>
      rcases known with pending | taken | settled
      · exact Or.inl pending
      · exact Or.inr (Or.inr (List.mem_append_right _ taken))
      · exact Or.inr (Or.inr (List.mem_append_left _ settled))
  | fail busy =>
      rcases known with pending | taken | settled
      · exact Or.inl pending
      · exact Or.inr (Or.inr (List.mem_append_left _ (List.mem_append_right _ taken)))
      · exact Or.inr (Or.inr (List.mem_append_left _ (List.mem_append_left _ settled)))
  | again done =>
      have none_ := sound.taken (by simp [done])
      rcases known with pending | taken | settled
      · exact Or.inr (Or.inl pending)
      · exact absurd (none_ ▸ taken : request ∈ []) List.not_mem_nil
      · exact Or.inr (Or.inr settled)
  | last | stop | clear => exact known

/-- Where no runner is at work or about to look again, every request is settled. -/
theorem Sound.settled {runner : Runner τ} {request : τ} (sound : Sound runner)
    (busy : runner.phase ≠ .working) (done : runner.phase ≠ .returned)
    (known : runner.Known request)
    : request ∈ runner.settled := by
  rcases known with pending | taken | settled
  · exact sound.waiting busy done request pending
  · exact absurd (sound.taken busy ▸ taken : request ∈ []) List.not_mem_nil
  · exact settled

end PiFabric.SingleRunner

/-! Programs that run alone. -/

namespace PiFabric.Interleaving

variable {ι W C : Type} {R : C → Type} {α β ε : Type}

namespace Prog

/-- The calls of a program, one after another, up to its result. -/
inductive Runs (perform : Perform ι W C R) (thread : ι) : Prog C R α → W → α → W → Prop
  | done {value : α} {world : W} : Runs perform thread (.done value) world value world
  | call {request : C} {next : R request → Prog C R α} {world middle last : W}
      {reply : R request} {value : α} (performed : perform thread world request reply middle)
      (rest : Runs perform thread (next reply) middle value last)
      : Runs perform thread (.call request next) world value last

variable {perform wider : Perform ι W C R} {thread : ι} {program : Prog C R α}
  {world world' : W} {value : α}

theorem Runs.mono (h : program.Runs perform thread world value world')
    (widens : ∀ {found request reply left}, perform thread found request reply left →
      wider thread found request reply left)
    : program.Runs wider thread world value world' := by
  induction h with
  | done => exact .done
  | call performed _ ih => exact .call (widens performed) ih

/-- Threads that are judged sound are so when they run alone, by induction on the run. -/
theorem Runs.sound {protocol : Protocol ι W C R} {post : W → α → Prop}
    (h : program.Runs protocol.perform thread world value world') (known : protocol.inv world)
    (sound : protocol.Sound thread post program world)
    : protocol.inv world' ∧ protocol.grows world world' ∧ post world' value := by
  induction h with
  | done => exact ⟨known, protocol.grows_refl _, sound _ (.refl known)⟩
  | call performed _ ih =>
      obtain ⟨guaranteed, remaining⟩ := sound _ (.refl known) _ _ performed
      obtain ⟨inv, grown, stated⟩ := ih guaranteed.inv remaining
      exact ⟨inv, protocol.grows_trans guaranteed.grows grown, stated⟩

/-- After a program that may throw comes the rest, which makes no others either. -/
theorem Only.try_ {kind : C → Prop} {first : ExceptT ε (Prog C R) α}
    {rest : α → ExceptT ε (Prog C R) β} (h : first.run.Only kind)
    (then_ : ∀ value, (rest value).run.Only kind)
    : (first >>= rest).run.Only kind := by
  refine Only.bind h fun outcome => ?_
  cases outcome with
  | ok value => exact then_ value
  | error error => trivial

/-- A function of the result makes no calls, by induction on the program. -/
theorem Only.map {kind : C → Prop} {f : α → β} (h : program.Only kind)
    : (f <$> program).Only kind := by
  induction program with
  | done value => trivial
  | call request next ih => exact ⟨h.1, fun reply => ih reply (h.2 reply)⟩

/-- The calls of a program, where a choice decides what each one does. -/
def play {Ch : Type} (decide_ : W → (request : C) → Ch → Option (R request × W))
    : Prog C R α → W → List Ch → Option (α × W)
  | .done value, world, [] => some (value, world)
  | .call request next, world, choice :: rest =>
      match decide_ world request choice with
      | some (reply, left) => (next reply).play decide_ left rest
      | none => none
  | _, _, _ => none

/-- What is played is a run, by induction on the choices. -/
theorem runs_of_play {Ch : Type} {decide_ : W → (request : C) → Ch → Option (R request × W)}
    {choices : List Ch}
    (performs : ∀ {found request choice reply left},
      decide_ found request choice = some (reply, left) →
        perform thread found request reply left)
    (h : program.play decide_ world choices = some (value, world'))
    : program.Runs perform thread world value world' := by
  induction choices generalizing program world with
  | nil =>
      cases program with
      | done result =>
          cases h
          exact .done
      | call request next => exact absurd h (by simp [play])
  | cons choice rest ih =>
      cases program with
      | done result => exact absurd h (by simp [play])
      | call request next =>
          unfold play at h
          cases decided : decide_ world request choice with
          | none => simp [decided] at h
          | some outcome =>
              simp only [decided] at h
              exact .call (performs decided) (ih h)

/-- Whatever its calls reply, the program ends as stated. -/
def Ensures (perform : Perform ι W C R) (thread : ι) (post : α → W → Prop)
    : Prog C R α → W → Prop
  | .done value, world => post value world
  | .call request next, world => ∀ reply left, perform thread world request reply left →
      (next reply).Ensures perform thread post left

variable {post weaker : α → W → Prop}

theorem Ensures.of_runs (h : program.Ensures perform thread post world)
    (run : program.Runs perform thread world value world')
    : post value world' := by
  induction run with
  | done => exact h
  | call performed _ ih => exact ih (h _ _ performed)

/-- A weaker statement, by induction on the program. -/
theorem Ensures.weaken (h : program.Ensures perform thread post world)
    (weakens : ∀ value left, post value left → weaker value left)
    : program.Ensures perform thread weaker world := by
  induction program generalizing world with
  | done value => exact weakens _ _ h
  | call request next ih =>
      intro reply left performed
      exact ih reply (h reply left performed)

/-- One program after another, by induction on the first. -/
theorem Ensures.bind {between : α → W → Prop} {after : β → W → Prop} {rest : α → Prog C R β}
    (first : program.Ensures perform thread between world)
    (second : ∀ value left, between value left →
      (rest value).Ensures perform thread after left)
    : (program >>= rest).Ensures perform thread after world := by
  induction program generalizing world with
  | done value => exact second _ _ first
  | call request next ih =>
      intro reply left performed
      exact ih reply (first reply left performed)

/-- A function of the result, by induction on the program. -/
theorem Ensures.map {after : β → W → Prop} {f : α → β}
    (h : program.Ensures perform thread (fun value left => after (f value) left) world)
    : (f <$> program).Ensures perform thread after world := by
  induction program generalizing world with
  | done value => exact h
  | call request next ih =>
      intro reply left performed
      exact ih reply (h reply left performed)

/-- After a program that may throw comes the rest, unless it threw. -/
theorem Ensures.try_ {between : Except ε α → W → Prop} {after : Except ε β → W → Prop}
    {first : ExceptT ε (Prog C R) α} {rest : α → ExceptT ε (Prog C R) β}
    (h : first.run.Ensures perform thread between world)
    (returned : ∀ value left, between (.ok value) left →
      (rest value).run.Ensures perform thread after left)
    (thrown : ∀ error left, between (.error error) left → after (.error error) left)
    : (first >>= rest).run.Ensures perform thread after world := by
  refine Ensures.bind h fun outcome left stated => ?_
  cases outcome with
  | ok value => exact returned value left stated
  | error error => exact thrown error left stated

end Prog

end PiFabric.Interleaving
