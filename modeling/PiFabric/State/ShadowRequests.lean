import PiFabric.State.ShadowRuns

/-! The requests of shadow backends. A backend's loop is a single runner: where no request reaches
it between its last look and the clearing of `#running`, every request is served when `flush()`
finds no run.
-/

namespace PiFabric.State.Shadow

open SingleRunner

variable {ι κ ε σ : Type}

def Loop.phase : Loop κ ε σ → Phase
  | .idle => .idle
  | .passing .. => .working
  | .passed => .returned
  | .failed .. => .failing
  | .ended => .ended

/-- A request that the backend's next pass would cover. -/
structure Waits (who : ι) (clock : Nat) (backend : Backend κ ε σ) (request : Request ι κ) : Prop where
  own : request.backend = who
  made : request.made ≤ clock
  full : request.want.full = true → backend.full = true
  keys : ∀ key ∈ request.want.keys, key ∈ backend.pending
  some_ : request.want.full = false → request.want.keys ≠ []

/-- A request that a pass covers, which began after it. -/
structure Takes (who : ι) (began : Nat) (want : Want κ) (request : Request ι κ) : Prop where
  own : request.backend = who
  made : request.made ≤ began
  covers : ∀ key, request.want.Covers key → want.Covers key

/-- A pass has disabled the shadow, or its loop is about to see that. -/
def Backend.Refused (backend : Backend κ ε σ) : Prop :=
  backend.disabled = true ∨ ∃ full, backend.loop = .failed full true

/-- A backend whose requests are those of a sound runner; `served` holds of the settled ones and,
once the shadow is disabled, of all.
-/
structure Tracks (served : Request ι κ → Prop) (requests : List (Request ι κ)) (who : ι) (clock : Nat)
    (backend : Backend κ ε σ) (runner : Runner (Request ι κ)) : Prop where
  sound : Sound runner
  phase : runner.phase = backend.loop.phase
  running : backend.running = false ↔ backend.loop = .idle
  enabled : backend.disabled = true → backend.loop = .idle ∨ backend.loop = .ended
  known : ∀ request ∈ requests, request.backend = who → runner.Known request ∨ served request
  waiting : ∀ request ∈ runner.pending, Waits who clock backend request
  taken : ∀ want began stage, backend.loop = .passing want began stage →
    began ≤ clock ∧ ∀ request ∈ runner.taken, Takes who began want request
  settled : ∀ request ∈ runner.settled, served request
  refused : backend.Refused → ∀ request : Request ι κ, request.backend = who → served request

section

variable {served : Request ι κ → Prop} {requests : List (Request ι κ)} {who : ι} {clock : Nat}
  {backend : Backend κ ε σ} {runner : Runner (Request ι κ)}

theorem new_tracks : Tracks served [] who clock (.new : Backend κ ε σ) Runner.idle where
  sound := idle_sound
  phase := rfl
  running := ⟨fun _ => rfl, fun _ => rfl⟩
  enabled := fun disabled => absurd disabled (by simp [Backend.new])
  known := by simp
  waiting := by simp [Runner.idle]
  taken := fun _ _ _ passing => absurd passing (by simp [Backend.new])
  settled := by simp [Runner.idle]
  refused := by simp [Backend.Refused, Backend.new]

theorem Tracks.mono {more : Request ι κ → Prop} {others : List (Request ι κ)} {later : Nat}
    (tracks : Tracks served requests who clock backend runner)
    (grows : ∀ request, served request → more request) (time : clock ≤ later)
    (same : ∀ request ∈ others, request.backend = who → request ∈ requests)
    : Tracks more others who later backend runner :=
  { tracks with
    known := fun request member own =>
      (tracks.known request (same request member own) own).imp_right (grows request)
    waiting := fun request member =>
      { tracks.waiting request member with made := (tracks.waiting request member).made.trans time }
    taken := fun want began stage passing =>
      ⟨(tracks.taken want began stage passing).1.trans time,
        (tracks.taken want began stage passing).2⟩
    settled := fun request member => grows request (tracks.settled request member)
    refused := fun off request own => grows request (tracks.refused off request own) }

variable {request : Request ι κ}

theorem Waits.takes (waits : Waits who clock backend request)
    : Takes who clock ⟨backend.full, backend.pending⟩ request where
  own := waits.own
  made := waits.made
  covers := by
    intro key covers
    rcases covers with full | member
    · exact Or.inl (waits.full full)
    · exact Or.inr (waits.keys key member)

def Backend.passes (clock : Nat) (backend : Backend κ ε σ) : Backend κ ε σ :=
  { backend with
    full := false
    pending := []
    loop := .passing ⟨backend.full, backend.pending⟩ clock .stamping }

theorem look_of_waits (waits : Waits who clock backend request) (enabled : backend.disabled = false)
    : backend.look clock = backend.passes clock := by
  have asked : (backend.full || !backend.pending.isEmpty) = true := by
    cases full : request.want.full with
    | true => rw [waits.full full, Bool.true_or]
    | false =>
        obtain ⟨key, member⟩ := List.exists_mem_of_ne_nil _ (waits.some_ full)
        have held := waits.keys key member
        cases pending : backend.pending with
        | nil => simp [pending] at held
        | cons => simp
  rw [Backend.look, if_pos (by rw [enabled, asked]; rfl)]
  rfl

theorem Tracks.starts {asked : Runner (Request ι κ)} {others : List (Request ι κ)}
    (sound : Sound asked.take) (running : backend.running = true) (enabled : backend.disabled = false)
    (known : ∀ request ∈ others, request.backend = who →
      asked.take.Known request ∨ served request)
    (waiting : ∀ request ∈ asked.pending, Waits who clock backend request)
    (settled : ∀ request ∈ asked.settled, served request)
    : Tracks served others who clock (backend.passes clock) asked.take where
  sound := sound
  phase := rfl
  running := by simp [Backend.passes, running]
  enabled := by simp [Backend.passes, enabled]
  known := known
  waiting := by simp [Runner.take]
  taken := by
    intro want began stage same
    obtain ⟨rfl, rfl, rfl⟩ := Loop.passing.inj same
    exact ⟨le_rfl, fun request member => (waiting request member).takes⟩
  settled := settled
  refused := by simp [Backend.Refused, Backend.passes, enabled]

theorem Tracks.kick {asking : Backend κ ε σ}
    (tracks : Tracks served requests who clock backend runner) (enabled : asking.disabled = false)
    (sameLoop : asking.loop = backend.loop) (sameRunning : asking.running = backend.running)
    (grows : ∀ request, Waits who clock backend request → Waits who clock asking request)
    (waits : Waits who clock asking request) (open_ : backend.loop ≠ .ended)
    (live : ∀ full refused, backend.loop ≠ .failed full refused)
    : ∃ runner, Tracks served (requests ++ [request]) who clock (asking.kick clock) runner := by
  have waiting : ∀ other ∈ (runner.ask request).pending, Waits who clock asking other := by
    intro other member
    rcases List.mem_append.mp member with member | member
    · exact grows other (tracks.waiting other member)
    · rw [List.mem_singleton.mp member]
      exact waits
  cases running : backend.running with
  | false =>
      have idle := tracks.running.mp running
      have free : runner.phase = .idle := by rw [tracks.phase, idle]; rfl
      have step := Step.start request free
      refine ⟨(runner.ask request).take, ?_⟩
      have sameWait : ∀ other, Waits who clock asking other →
          Waits who clock { asking with running := true } other := fun other waits =>
        ⟨waits.own, waits.made, waits.full, waits.keys, waits.some_⟩
      have started : asking.kick clock = Backend.passes clock { asking with running := true } := by
        rw [Backend.kick, if_neg (by simp [sameRunning, running, enabled])]
        exact look_of_waits (sameWait request waits) enabled
      rw [started]
      refine Tracks.starts (tracks.sound.step step) rfl enabled (fun other member own => ?_)
        (fun other member => sameWait other (waiting other member)) tracks.settled
      rcases List.mem_append.mp member with member | member
      · exact (tracks.known other member own).imp_left (tracks.sound.known step)
      · rw [List.mem_singleton.mp member]
        exact Or.inl (Or.inr (Or.inl (List.mem_append_right _ (List.mem_singleton_self _))))
  | true =>
      have busy : runner.phase = .working ∨ runner.phase = .returned := by
        have notIdle : backend.loop ≠ .idle := fun idle => by
          simp [tracks.running.mpr idle] at running
        rw [tracks.phase]
        cases loop : backend.loop <;> simp_all [Loop.phase]
      have step := Step.wait request busy
      refine ⟨runner.ask request, ?_⟩
      rw [Backend.kick, sameRunning, running, Bool.true_or, if_pos rfl]
      exact {
        sound := tracks.sound.step step
        phase := by rw [sameLoop]; exact tracks.phase
        running := by rw [sameLoop, sameRunning]; exact tracks.running
        enabled := by simp [enabled]
        known := by
          intro other member own
          rcases List.mem_append.mp member with member | member
          · exact (tracks.known other member own).imp_left (tracks.sound.known step)
          · exact Or.inl (Or.inl (List.mem_append_right _ member))
        waiting := waiting
        taken := by rw [sameLoop]; exact tracks.taken
        settled := tracks.settled
        refused := by
          rintro (disabled | ⟨full, failed⟩)
          · simp [enabled] at disabled
          · exact absurd (sameLoop ▸ failed) (live full true) }

/-- A request that a disabled shadow does not take up. -/
theorem Tracks.ignores {asking : Backend κ ε σ}
    (tracks : Tracks served requests who clock backend runner) (refused : backend.Refused)
    (sameLoop : asking.loop = backend.loop) (sameRunning : asking.running = backend.running)
    (sameDisabled : asking.disabled = backend.disabled)
    (grows : ∀ request, Waits who clock backend request → Waits who clock asking request)
    : Tracks served (requests ++ [request]) who clock (asking.kick clock) runner := by
  have still : asking.kick clock = asking := by
    rw [Backend.kick, if_pos]
    rw [sameRunning, sameDisabled, Bool.or_eq_true]
    rcases refused with disabled | ⟨full, failed⟩
    · exact Or.inr disabled
    · refine Or.inl (Bool.eq_true_of_not_eq_false fun idle => ?_)
      have none_ := tracks.running.mp idle
      simp [failed] at none_
  rw [still]
  exact {
    tracks with
    phase := by rw [sameLoop]; exact tracks.phase
    running := by rw [sameLoop, sameRunning]; exact tracks.running
    enabled := by rw [sameLoop, sameDisabled]; exact tracks.enabled
    known := by
      intro other member mine
      rcases List.mem_append.mp member with member | member
      · exact tracks.known other member mine
      · exact Or.inr (tracks.refused refused other mine)
    waiting := fun other member => grows other (tracks.waiting other member)
    taken := by rw [sameLoop]; exact tracks.taken
    refused := fun _ => tracks.refused refused }

theorem Tracks.goes_on {want : Want κ} {began : Nat} {stage later : Stage κ ε σ}
    (tracks : Tracks served requests who clock backend runner)
    (passing : backend.loop = .passing want began stage)
    : Tracks served requests who clock { backend with loop := .passing want began later } runner :=
  { tracks with
    phase := by rw [tracks.phase, passing]; rfl
    running := by simp [tracks.running, passing]
    enabled := fun disabled => by simpa [passing] using tracks.enabled disabled
    waiting := fun request member =>
      ⟨(tracks.waiting request member).own, (tracks.waiting request member).made,
        (tracks.waiting request member).full, (tracks.waiting request member).keys,
        (tracks.waiting request member).some_⟩
    taken := by
      intro _ _ _ same
      obtain ⟨rfl, rfl, rfl⟩ := Loop.passing.inj same
      exact tracks.taken _ _ _ passing
    refused := fun off => tracks.refused (off.imp_right (by simp)) }

/-- Moving between phases without a pass keeps the requests. -/
theorem Tracks.between {phase : Phase} {next : Backend κ ε σ}
    (tracks : Tracks served requests who clock backend runner)
    (step : Step runner (runner.inPhase phase)) (same : next.loop.phase = phase)
    (running : next.running = false ↔ next.loop = .idle)
    (enabled : next.disabled = true → next.loop = .idle ∨ next.loop = .ended)
    (resting : phase ≠ .working) (pending : next.pending = backend.pending)
    (full : backend.full = true → next.full = true) (off : next.Refused → backend.Refused)
    : Tracks served requests who clock next (runner.inPhase phase) where
  sound := tracks.sound.step step
  phase := same.symm
  running := running
  enabled := enabled
  known := fun request member own =>
    (tracks.known request member own).imp_left (tracks.sound.known step)
  waiting := fun request member =>
    { tracks.waiting request member with
      full := fun asked => full ((tracks.waiting request member).full asked)
      keys := by
        rw [pending]
        exact (tracks.waiting request member).keys }
  taken := by
    intro want began stage passing
    rw [passing] at same
    exact absurd same.symm resting
  settled := tracks.settled
  refused := fun refused => tracks.refused (off refused)

/-- A pass that is over has served what it took. -/
theorem Tracks.finishes {want : Want κ} {began : Nat} {stage : Stage κ ε σ}
    (tracks : Tracks served requests who clock backend runner)
    (passing : backend.loop = .passing want began stage)
    (serves : ∀ request, Takes who began want request → served request)
    : Tracks served requests who clock ({ backend with loop := .passed } : Backend κ ε σ)
      runner.finish := by
  have phase : runner.phase = .working := by rw [tracks.phase, passing]; rfl
  have step := Step.finish phase
  exact {
    sound := tracks.sound.step step
    phase := rfl
    running := by simp [tracks.running, passing]
    enabled := fun disabled => by
      have enabled := tracks.enabled disabled
      simp [passing] at enabled
    known := fun request member own =>
      (tracks.known request member own).imp_left (tracks.sound.known step)
    waiting := fun request member => { tracks.waiting request member with }
    taken := by simp
    settled := by
      intro request member
      rcases List.mem_append.mp member with member | member
      · exact tracks.settled request member
      · exact serves request ((tracks.taken want began stage passing).2 request member)
    refused := fun off => tracks.refused (off.imp_right (by simp)) }

/-- A failed pass has met all that it took and all that waited. -/
theorem Tracks.fails {want : Want κ} {began : Nat} {stage : Stage κ ε σ} {refused : Bool}
    (tracks : Tracks served requests who clock backend runner)
    (passing : backend.loop = .passing want began stage)
    (meets : ∀ request : Request ι κ, request.backend = who →
      request.made ≤ clock ∨ refused = true → served request)
    : Tracks served requests who clock
      ({ backend with loop := .failed want.full refused } : Backend κ ε σ) runner.fail := by
  have phase : runner.phase = .working := by rw [tracks.phase, passing]; rfl
  have step := Step.fail phase
  obtain ⟨past, taken⟩ := tracks.taken want began stage passing
  exact {
    sound := tracks.sound.step step
    phase := rfl
    running := by simp [tracks.running, passing]
    enabled := fun disabled => by
      have enabled := tracks.enabled disabled
      simp [passing] at enabled
    known := fun request member own =>
      (tracks.known request member own).imp_left (tracks.sound.known step)
    waiting := fun request member => { tracks.waiting request member with }
    taken := by simp
    settled := by
      intro request member
      rcases List.mem_append.mp member with member | pending
      · rcases List.mem_append.mp member with settled | member
        · exact tracks.settled request settled
        · have takes := taken request member
          exact meets request takes.own (Or.inl (takes.made.trans past))
      · have waits := tracks.waiting request pending
        exact meets request waits.own (Or.inl waits.made)
    refused := by
      rintro (disabled | ⟨full, failed⟩)
      · exact tracks.refused (Or.inl disabled)
      · exact fun request own => meets request own (Or.inr (Loop.failed.inj failed).2) }

/-- After a pass the loop takes all that waits, or ends where nothing does. -/
theorem Tracks.looks (tracks : Tracks served requests who clock backend runner)
    (passed : backend.loop = .passed)
    : ∃ runner, Tracks served requests who clock (backend.look clock) runner := by
  have phase : runner.phase = .returned := by rw [tracks.phase, passed]; rfl
  have enabled : backend.disabled = false := by
    by_contra disabled
    have closed := tracks.enabled (by simpa using disabled)
    simp [passed] at closed
  have running : backend.running = true := by
    by_contra idle
    have none_ := tracks.running.mp (by simpa using idle)
    simp [passed] at none_
  have resumes : ∀ started, backend.look clock = started → started = backend.passes clock →
      ∃ runner, Tracks served requests who clock (backend.look clock) runner := by
    rintro started rfl same
    have step := Step.again phase
    refine ⟨runner.take, ?_⟩
    rw [same]
    exact Tracks.starts (tracks.sound.step step) running enabled (fun request member own =>
      (tracks.known request member own).imp_left (tracks.sound.known step)) tracks.waiting
      tracks.settled
  cases pending : runner.pending with
  | cons request rest =>
      have waits := tracks.waiting request (pending ▸ List.mem_cons_self)
      exact resumes _ rfl (look_of_waits waits enabled)
  | nil =>
      by_cases asked : (!backend.disabled && (backend.full || !backend.pending.isEmpty)) = true
      · exact resumes _ rfl (by rw [Backend.look, if_pos asked]; rfl)
      · refine ⟨runner.inPhase .ended, ?_⟩
        rw [Backend.look, if_neg asked]
        exact tracks.between (Step.last phase pending) rfl (by simp [running])
          (fun _ => Or.inr rfl) (by simp) rfl id fun off => off.imp_right (by simp)

/-- A loop that goes on stays tracked. -/
theorem Tracks.resume {next : Backend κ ε σ}
    (tracks : Tracks served requests who clock backend runner)
    (resumed : backend.resume clock = some next)
    : ∃ runner, Tracks served requests who clock next runner := by
  simp only [Backend.resume] at resumed
  split at resumed
  · next passed =>
      obtain rfl := Option.some.inj resumed
      exact tracks.looks passed
  · next full refused failed =>
      obtain rfl := Option.some.inj resumed
      have phase : runner.phase = .failing := by rw [tracks.phase, failed]; rfl
      have running : backend.running ≠ false := fun idle => by
        have none_ := tracks.running.mp idle
        simp [failed] at none_
      exact ⟨_, tracks.between (Step.stop phase) rfl (by simp [running]) (fun _ => Or.inr rfl)
        (by simp) rfl (fun full => by simp [full]) (by simp [Backend.Refused, failed])⟩
  · cases resumed

/-- When `#running` is cleared every request is settled, and stays so. -/
theorem Tracks.clear {next : Backend κ ε σ}
    (tracks : Tracks served requests who clock backend runner) (cleared : backend.clear = some next)
    : ∃ runner, Tracks served requests who clock next runner := by
  simp only [Backend.clear] at cleared
  split at cleared
  · next ended =>
      obtain rfl := Option.some.inj cleared
      have phase : runner.phase = .ended := by rw [tracks.phase, ended]; rfl
      exact ⟨_, tracks.between (Step.clear phase) rfl (by simp) (fun _ => Or.inl rfl) (by simp) rfl
        id fun off => off.imp_right (by simp)⟩
  · cases cleared

end

/-- Every backend's requests are those of a sound runner. -/
def Tracked (world : World ι κ ε σ) : Prop :=
  ∀ who, ∃ runner, Tracks (Served world) world.requests who world.clock (world.backends who) runner

section

variable {world next : World ι κ ε σ} {who : ι}

theorem Served.mono {request : Request ι κ} (mirrors : world.mirrors ⊆ next.mirrors)
    (failures : world.failures ⊆ next.failures) (served : Served world request)
    : Served next request := by
  rcases served with ⟨mirror, member, serves⟩ | ⟨failure, member, meets⟩
  · exact Or.inl ⟨mirror, mirrors member, serves⟩
  · exact Or.inr ⟨failure, failures member, meets⟩

theorem Tracked.change (tracked : Tracked world)
    (others : ∀ other, other ≠ who → next.backends other = world.backends other)
    (requests : ∀ request ∈ next.requests, request.backend ≠ who → request ∈ world.requests)
    (mirrors : world.mirrors ⊆ next.mirrors) (failures : world.failures ⊆ next.failures)
    (time : world.clock ≤ next.clock)
    (own : ∃ runner,
      Tracks (Served next) next.requests who next.clock (next.backends who) runner)
    : Tracked next := by
  intro other
  by_cases same : other = who
  · subst same
    exact own
  · obtain ⟨runner, tracks⟩ := tracked other
    refine ⟨runner, ?_⟩
    rw [others other same]
    exact tracks.mono (fun _ => Served.mono mirrors failures) time fun request member own =>
      requests request member (own ▸ same)

theorem Tracked.tick {later : Nat} (tracked : Tracked world) (time : world.clock ≤ later)
    : Tracked { world with clock := later } := by
  intro who
  obtain ⟨runner, tracks⟩ := tracked who
  exact ⟨runner, tracks.mono (fun _ served => served) time fun _ member _ => member⟩

/-- Holding the database or not is nothing to the requests. -/
theorem Tracked.hold {holder : Option ι} (tracked : Tracked world)
    : Tracked { world with holder } := by
  intro who
  obtain ⟨runner, tracks⟩ := tracked who
  exact ⟨runner, tracks.mono (fun _ served => served) le_rfl fun _ member _ => member⟩

theorem mem_add [DecidableEq κ] {pending keys : List κ} {key : κ}
    : key ∈ Backend.add pending keys ↔ key ∈ pending ∨ key ∈ keys := by
  induction keys generalizing pending with
  | nil => simp [Backend.add]
  | cons first rest ih =>
      rw [Backend.add, List.foldl_cons, ← Backend.add, ih]
      split
      · next present =>
          simp only [List.mem_cons]
          exact ⟨fun h => h.imp_right Or.inr, fun h => h.elim Or.inl fun h =>
            h.elim (fun same => Or.inl (same ▸ present)) Or.inr⟩
      · simp only [List.mem_append, List.mem_cons, List.not_mem_nil, or_false]
        tauto

variable [DecidableEq ι]

/-- Only one backend's part of a step without requests. -/
theorem Tracked.put {backend : Backend κ ε σ} (tracked : Tracked world)
    (own : ∀ runner, Tracks (Served world) world.requests who world.clock (world.backends who)
      runner → ∃ runner, Tracks (Served world) world.requests who world.clock backend runner)
    : Tracked (world.put who backend) := by
  refine tracked.change (fun other apart => Function.update_of_ne apart _ _)
    (fun _ member _ => member) (List.Subset.refl _) (List.Subset.refl _) le_rfl ?_
  obtain ⟨runner, tracks⟩ := tracked who
  obtain ⟨runner, tracks⟩ := own runner tracks
  refine ⟨runner, ?_⟩
  simp only [World.put, Function.update_self]
  exact tracks.mono (fun _ served => served) le_rfl fun _ member _ => member

theorem Tracked.request {asking : Backend κ ε σ} {want : Want κ} (tracked : Tracked world)
    (sameLoop : asking.loop = (world.backends who).loop)
    (sameRunning : asking.running = (world.backends who).running)
    (sameDisabled : asking.disabled = (world.backends who).disabled)
    (grows : ∀ request : Request ι κ, Waits who world.clock (world.backends who) request →
      Waits who world.clock asking request)
    (waits : Waits who world.clock asking (⟨who, world.clock, want⟩ : Request ι κ))
    (open_ : ¬(world.backends who).Closing)
    : Tracked ((world.put who (asking.kick world.clock)).request who want) := by
  refine tracked.change (fun other apart => Function.update_of_ne apart _ _)
    (fun request member apart => ?_) (List.Subset.refl _) (List.Subset.refl _) le_rfl ?_
  · rcases List.mem_append.mp member with member | last
    · exact member
    · rw [List.mem_singleton.mp last] at apart
      exact absurd rfl apart
  · obtain ⟨runner, tracks⟩ := tracked who
    simp only [World.request, World.put, Function.update_self]
    by_cases refused : (world.backends who).Refused
    · exact ⟨runner, (tracks.ignores refused sameLoop sameRunning sameDisabled grows).mono
        (fun _ served => served) le_rfl fun _ member _ => member⟩
    · obtain ⟨enabled, live⟩ := not_or.mp refused
      have enabled := Bool.eq_false_of_not_eq_true enabled
      have notEnded : (world.backends who).loop ≠ .ended := fun ended =>
        open_ ⟨enabled, by rw [ended]; trivial⟩
      have notFailed : ∀ full refused, (world.backends who).loop ≠ .failed full refused := by
        intro full refused failed
        cases refused with
        | false => exact open_ ⟨enabled, by rw [failed]⟩
        | true => exact live ⟨full, failed⟩
      obtain ⟨runner, tracks⟩ := tracks.kick (sameDisabled.trans enabled) sameLoop sameRunning grows
        waits notEnded notFailed
      exact ⟨runner, tracks.mono (fun _ served => served) le_rfl fun _ member _ => member⟩

variable {want : Want κ} {began : Nat} {stage : Stage κ ε σ}

theorem Tracked.move {later : Stage κ ε σ} (tracked : Tracked world)
    (passing : (world.backends who).loop = .passing want began stage)
    : Tracked (world.move who (.passing want began later)) :=
  tracked.put fun runner tracks => ⟨runner, tracks.goes_on passing⟩

/-- A committed pass serves what it took. -/
theorem Tracked.commit {instant : Nat} {shadow : JsMap κ ε} (tracked : Tracked world)
    (passing : (world.backends who).loop = .passing want began stage)
    : Tracked { world.move who .passed with
        shadow
        holder := none
        mirrors := world.mirrors ++ [⟨who, began, want, instant, shadow⟩] } := by
  refine tracked.change (fun other apart => Function.update_of_ne apart _ _)
    (fun _ member _ => member) (List.subset_append_left _ _) (List.Subset.refl _) le_rfl ?_
  obtain ⟨runner, tracks⟩ := tracked who
  have later : Tracks (Served ({ world.move who .passed with
      shadow
      holder := none
      mirrors := world.mirrors ++ [⟨who, began, want, instant, shadow⟩] } : World ι κ ε σ))
      world.requests who world.clock (world.backends who) runner :=
    tracks.mono (fun _ => Served.mono (List.subset_append_left _ _) (List.Subset.refl _)) le_rfl
      fun _ member _ => member
  refine ⟨runner.finish, ?_⟩
  simp only [World.move, World.put, Function.update_self]
  exact later.finishes passing fun request takes => Or.inl ⟨_, List.mem_append_right _
    (List.mem_singleton_self _), takes.own.symm, takes.made, takes.covers⟩

theorem Tracked.failPass {refused : Bool} (tracked : Tracked world)
    (passing : (world.backends who).loop = .passing want began stage)
    : Tracked (world.failPass who want refused) := by
  refine tracked.change (fun other apart => Function.update_of_ne apart _ _)
    (fun _ member _ => member) (List.Subset.refl _) (List.subset_append_left _ _) le_rfl ?_
  obtain ⟨runner, tracks⟩ := tracked who
  have later : Tracks (Served (world.failPass who want refused)) world.requests who world.clock
      (world.backends who) runner :=
    tracks.mono (fun _ => Served.mono (List.Subset.refl _) (List.subset_append_left _ _)) le_rfl
      fun _ member _ => member
  refine ⟨runner.fail, ?_⟩
  simp only [World.failPass, World.move, World.put, Function.update_self]
  exact later.fails passing fun request own met => Or.inr ⟨⟨who, world.clock, refused⟩,
    List.mem_append_right _ (List.mem_singleton_self _), own.symm, met⟩

variable [DecidableEq κ] [DecidableEq ε] [DecidableEq σ] {stampOf : Nat → σ} {event : Event ι κ ε}

theorem clock_stepPass
    (taken : Shadow.stepPass stampOf world who want began stage event = some next)
    : next.clock = world.clock := by
  cases stage <;> cases event <;> simp only [Shadow.stepPass, reduceCtorEq] at taken
  case stamping.stamp | prepared.commit =>
    obtain rfl := Option.some.inj taken
    rfl
  case reading.read =>
    split at taken
    · obtain rfl := Option.some.inj taken
      rfl
    · split at taken <;> (obtain rfl := Option.some.inj taken; rfl)
  case opening.begin =>
    split at taken
    · obtain rfl := Option.some.inj taken
      rfl
    · cases taken
  case holding.prepare =>
    split at taken
    · obtain rfl := Option.some.inj taken
      rfl
    · split at taken <;> (obtain rfl := Option.some.inj taken; rfl)

theorem clock_stepAt (taken : Shadow.stepAt stampOf world event = some next)
    : next.clock = world.clock := by
  have pass : ∀ who, passStep stampOf world event who = some next → next.clock = world.clock := by
    intro who taken
    obtain ⟨want, began, stage, passing, stepped⟩ := passing_of_passStep taken
    exact clock_stepPass stepped
  cases event with
  | write file =>
      obtain rfl := Option.some.inj taken
      rfl
  | enqueue who keys =>
      obtain rfl := Option.some.inj taken
      split <;> rfl
  | repair who =>
      obtain rfl := Option.some.inj taken
      rfl
  | stamp who => exact pass who taken
  | read who => exact pass who taken
  | begin who => exact pass who taken
  | prepare who => exact pass who taken
  | commit who => exact pass who taken
  | fail who refused =>
      simp only [Shadow.stepAt] at taken
      split at taken
      · obtain rfl := Option.some.inj taken
        rfl
      · cases taken
  | resume who =>
      obtain ⟨backend, resumed, rfl⟩ := Option.map_eq_some_iff.mp taken
      rfl
  | clear who =>
      obtain ⟨backend, cleared, rfl⟩ := Option.map_eq_some_iff.mp taken
      rfl

theorem Tracked.stepPass (tracked : Tracked world)
    (passing : (world.backends who).loop = .passing want began stage)
    (taken : Shadow.stepPass stampOf world who want began stage event = some next)
    : Tracked next := by
  cases stage <;> cases event <;> simp only [Shadow.stepPass, reduceCtorEq] at taken
  case stamping.stamp =>
    obtain rfl := Option.some.inj taken
    exact tracked.move passing
  case reading.read stamp rest wanted _ =>
    split at taken
    · obtain rfl := Option.some.inj taken
      exact tracked.move passing
    · split at taken <;> (obtain rfl := Option.some.inj taken; exact tracked.move passing)
  case opening.begin stamp wanted attempt _ =>
    split at taken
    · obtain rfl := Option.some.inj taken
      exact (tracked.move passing).hold
    · cases taken
  case holding.prepare stamp wanted attempt _ =>
    split at taken
    · obtain rfl := Option.some.inj taken
      exact tracked.move passing
    · split at taken
      · obtain rfl := Option.some.inj taken
        exact (tracked.move passing).hold
      · obtain rfl := Option.some.inj taken
        exact tracked.failPass passing
  case prepared.commit ops instant _ =>
    obtain rfl := Option.some.inj taken
    exact tracked.commit passing

theorem Tracked.stepAt (tracked : Tracked world) (open_ : LoopOpen world event)
    (taken : Shadow.stepAt stampOf world event = some next)
    : Tracked next := by
  have pass : ∀ who, passStep stampOf world event who = some next → Tracked next := by
    intro who taken
    obtain ⟨want, began, stage, passing, stepped⟩ := passing_of_passStep taken
    exact tracked.stepPass passing stepped
  cases event with
  | write file =>
      obtain rfl := Option.some.inj taken
      intro who
      obtain ⟨runner, tracks⟩ := tracked who
      exact ⟨runner, tracks.mono (fun _ served => served) le_rfl fun _ member _ => member⟩
  | enqueue who keys =>
      obtain rfl := Option.some.inj taken
      by_cases ignored : ((world.backends who).disabled || keys.isEmpty) = true
      · simp only [if_pos ignored, Backend.enqueue]
        exact tracked.put fun runner tracks => ⟨runner, tracks⟩
      · simp only [if_neg ignored, Backend.enqueue]
        simp only [Bool.or_eq_true, not_or, Bool.not_eq_true, List.isEmpty_eq_false_iff] at ignored
        refine tracked.request rfl rfl rfl (fun request waits => ?_) ?_ (open_ ignored.2)
        · exact ⟨waits.own, waits.made, waits.full, fun key member =>
            mem_add.mpr (Or.inl (waits.keys key member)), waits.some_⟩
        · exact ⟨rfl, le_rfl, by simp, fun key member => mem_add.mpr (Or.inr member),
            fun _ => ignored.2⟩
  | repair who =>
      obtain rfl := Option.some.inj taken
      refine tracked.request rfl rfl rfl (fun request waits => ?_) ?_ open_
      · exact ⟨waits.own, waits.made, fun _ => rfl, waits.keys, waits.some_⟩
      · exact ⟨rfl, le_rfl, fun _ => rfl, by simp, by simp⟩
  | stamp who => exact pass who taken
  | read who => exact pass who taken
  | begin who => exact pass who taken
  | prepare who => exact pass who taken
  | commit who => exact pass who taken
  | fail who refused =>
      simp only [Shadow.stepAt] at taken
      split at taken
      · next want began stage passing =>
          obtain rfl := Option.some.inj taken
          exact tracked.failPass passing
      · cases taken
  | resume who =>
      obtain ⟨backend, resumed, rfl⟩ := Option.map_eq_some_iff.mp taken
      exact tracked.put fun runner tracks => tracks.resume resumed
  | clear who =>
      obtain ⟨backend, cleared, rfl⟩ := Option.map_eq_some_iff.mp taken
      exact tracked.put fun runner tracks => tracks.clear cleared

/-- In every run that meets the condition the requests are tracked, by induction over its steps. -/
theorem Run.tracked {file shadow : JsMap κ ε} (run : Run stampOf file shadow LoopOpen world)
    : Tracked world := by
  induction run with
  | start => exact fun who => ⟨Runner.idle, new_tracks⟩
  | step _ open_ taken ih =>
      obtain ⟨next, stepped, rfl⟩ := Option.map_eq_some_iff.mp taken
      exact (ih.stepAt open_ stepped).tick (clock_stepAt stepped ▸ Nat.le_succ _)

end

instance (backend : Backend κ ε σ) : Decidable backend.Closing := by
  unfold Backend.Closing
  cases backend.loop <;> infer_instance

instance [DecidableEq κ] (world : World ι κ ε σ) (event : Event ι κ ε)
    : Decidable (LoopOpen world event) := by
  cases event <;> simp only [LoopOpen] <;> infer_instance

section

variable [DecidableEq ι] [DecidableEq κ] [DecidableEq ε] [DecidableEq σ]

def execute (stampOf : Nat → σ) (allowed : World ι κ ε σ → Event ι κ ε → Bool)
    (world : World ι κ ε σ) : List (Event ι κ ε) → Option (World ι κ ε σ)
  | [] => some world
  | event :: rest =>
      if allowed world event then
        (step stampOf world event).bind fun next => execute stampOf allowed next rest
      else none

theorem Run.execute {stampOf : Nat → σ} {file shadow : JsMap κ ε}
    {allowed : World ι κ ε σ → Event ι κ ε → Prop} {test : World ι κ ε σ → Event ι κ ε → Bool}
    (sound : ∀ world event, test world event = true → allowed world event)
    {events : List (Event ι κ ε)} {world next : World ι κ ε σ}
    (run : Run stampOf file shadow allowed world)
    (executed : Shadow.execute stampOf test world events = some next)
    : Run stampOf file shadow allowed next := by
  induction events generalizing world with
  | nil =>
      obtain rfl := Option.some.inj executed
      exact run
  | cons event rest ih =>
      simp only [Shadow.execute] at executed
      split at executed
      · next meets =>
          obtain ⟨middle, taken, executed⟩ := Option.bind_eq_some_iff.mp executed
          exact ih (run.step (sound _ _ meets) taken) executed
      · cases executed

end

end PiFabric.State.Shadow
