import PiFabric.Foundation.SingleRunner
import PiFabric.Records.Page

/-! The publication relay: concurrent flushes share one run of rounds, and each round claims and
publishes rows until none is left. Steps are the synchronous pieces of its promises.
-/

namespace PiFabric.Records.Relay

open SingleRunner

variable {ρ : Type}

/-- The publication rows: those committed, in the order of their sequences, those that a round has
claimed, and those marked published. No lease runs out.
-/
structure Table (ρ : Type) where
  committed : List ρ
  claimed : List ρ
  published : List ρ
deriving DecidableEq

/-- `claimPublications`: the rows that fit the response budget, whether there may be more, and the
table with their claims. What does not fit is released at once.
-/
def claimPublications [DecidableEq ρ] (limit : Nat) (bytes : ρ → Nat) (table : Table ρ)
    : List ρ × Bool × Table ρ :=
  let all := (table.committed.filter fun row =>
    row ∉ table.published ∧ row ∉ table.claimed).take limit
  let claims := withinBudget bytes responseBudgetBytes all
  (claims, claims.length < all.length || all.length = limit,
    { table with claimed := table.claimed ++ claims })

/-- Where there are no more rows, every row that was committed is published or claimed. -/
theorem claimPublications_all [DecidableEq ρ] {limit : Nat} {bytes : ρ → Nat} {table : Table ρ} {row : ρ}
    (last : (claimPublications limit bytes table).2.1 = false) (member : row ∈ table.committed)
    : row ∈ table.published ∨ row ∈ table.claimed
      ∨ row ∈ (claimPublications limit bytes table).1 := by
  by_cases published : row ∈ table.published
  · exact Or.inl published
  by_cases claimed : row ∈ table.claimed
  · exact Or.inr (Or.inl claimed)
  right; right
  simp only [claimPublications, Bool.or_eq_false_iff, decide_eq_false_iff_not, not_lt] at last
  obtain ⟨whole, few⟩ := last
  have all : ((table.committed.filter fun row =>
      row ∉ table.published ∧ row ∉ table.claimed).take limit)
      = table.committed.filter fun row => row ∉ table.published ∧ row ∉ table.claimed := by
    rw [List.length_take] at few
    exact List.take_of_length_le (by omega)
  simp only [claimPublications]
  rw [List.IsPrefix.eq_of_length_le withinBudget_front whole, all]
  exact List.mem_filter.mpr ⟨member, by simp [published, claimed]⟩

/-- Where the run's async function stands: in the `await`s of a round, with the rows the round still
has in hand and whether its last claim left more, or at its loop's condition.
-/
inductive Loop (ρ : Type) where
  | idle
  | claiming
  | next (rows : List ρ) (more : Bool)
  | publishing (row : ρ) (rest : List ρ) (more : Bool)
  | acking (row : ρ) (rest : List ρ) (more : Bool)
  /-- The round has returned and the loop has not looked at `#again`. -/
  | returned
  /-- The loop is over and the callback that clears `#running` has not run. -/
  | ended
deriving DecidableEq

/-- A call of `flush`: the run whose promise it got, and the rows committed before it. -/
structure Flush (ρ : Type) where
  run : Nat
  before : List ρ
deriving DecidableEq

/-- `#again` and `#running` of the relay, its run, the rows, and the calls so far with the runs
whose promise has resolved. Runs are numbered.
-/
structure World (ρ : Type) where
  again : Bool
  running : Option Nat
  loop : Loop ρ
  table : Table ρ
  runs : Nat
  flushes : List (Flush ρ)
  resolved : List Nat
deriving DecidableEq

def World.start : World ρ where
  again := false
  running := none
  loop := .idle
  table := ⟨[], [], []⟩
  runs := 0
  flushes := []
  resolved := []

inductive Event (ρ : Type) where
  | commit (row : ρ)
  | flush
  /-- The transactions of `claimPublications`. -/
  | claim
  /-- The round goes on with the rows it has. -/
  | resume
  | publish
  | ack
  /-- The loop looks at `#again` after a round. -/
  | look
  /-- The callback of `finally`. -/
  | clear
  | resolve (run : Nat)

def flush (world : World ρ) : World ρ :=
  match world.running with
  | some run =>
      { world with again := true, flushes := world.flushes ++ [⟨run, world.table.committed⟩] }
  | none =>
      { world with
        again := false
        running := some world.runs
        loop := .claiming
        runs := world.runs + 1
        flushes := world.flushes ++ [⟨world.runs, world.table.committed⟩] }

def step [DecidableEq ρ] (limit : Nat) (bytes : ρ → Nat) (world : World ρ) : Event ρ → Option (World ρ)
  | .commit row =>
      if row ∈ world.table.committed then none
      else some { world with
        table := { world.table with committed := world.table.committed ++ [row] } }
  | .flush => some (flush world)
  | .claim =>
      match world.loop with
      | .claiming =>
          let (claims, more, table) := claimPublications limit bytes world.table
          some { world with loop := .next claims more, table }
      | _ => none
  | .resume =>
      match world.loop with
      | .next (row :: rest) more => some { world with loop := .publishing row rest more }
      | .next [] true => some { world with loop := .claiming }
      | .next [] false => some { world with loop := .returned }
      | _ => none
  | .publish =>
      match world.loop with
      | .publishing row rest more => some { world with loop := .acking row rest more }
      | _ => none
  | .ack =>
      match world.loop with
      | .acking row rest more =>
          some { world with
            loop := .next rest more
            table := { world.table with published := world.table.published ++ [row] } }
      | _ => none
  | .look =>
      match world.loop with
      | .returned =>
          if world.again then some { world with again := false, loop := .claiming }
          else some { world with loop := .ended }
      | _ => none
  | .clear =>
      match world.loop with
      | .ended => some { world with running := none, loop := .idle }
      | _ => none
  | .resolve run =>
      if run < world.runs ∧ world.running ≠ some run then
        some { world with resolved := world.resolved ++ [run] }
      else none

inductive Run [DecidableEq ρ] (limit : Nat) (bytes : ρ → Nat)
    (allowed : World ρ → Event ρ → Prop) : World ρ → Prop where
  | start : Run limit bytes allowed .start
  | step {world next event} (before : Run limit bytes allowed world)
    (meets : allowed world event) (taken : Relay.step limit bytes world event = some next)
    : Run limit bytes allowed next

/-- A row committed before a flush is claimed once that flush's promise has resolved, and published
once all promises have.
-/
def NoLostWakeup (world : World ρ) : Prop :=
  (∀ call ∈ world.flushes, call.run ∈ world.resolved → ∀ row ∈ call.before,
    row ∈ world.table.claimed)
  ∧ ((∀ call ∈ world.flushes, call.run ∈ world.resolved) →
    ∀ call ∈ world.flushes, ∀ row ∈ call.before, row ∈ world.table.published)

/-- No flush is called while `#running` is set and its loop is over. -/
def LoopOpen (world : World ρ) : Event ρ → Prop
  | .flush => world.loop ≠ .ended
  | _ => True

namespace Loop

def phase : Loop ρ → SingleRunner.Phase
  | .idle => .idle
  | .returned => .returned
  | .ended => .ended
  | _ => .working

def inHand : Loop ρ → List ρ
  | .next rows _ => rows
  | .publishing row rest _ => row :: rest
  | .acking row rest _ => row :: rest
  | _ => []

def claimedAll : Loop ρ → Bool
  | .next _ more => !more
  | .publishing _ _ more => !more
  | .acking _ _ more => !more
  | .returned => true
  | _ => false

end Loop

/-- A relay, the requests of its flushes, and the rows committed when the present round began. -/
structure Sound (world : World ρ) (runner : Runner (Flush ρ)) (since : List ρ) : Prop where
  runs : SingleRunner.Sound runner
  phase : runner.phase = world.loop.phase
  asked : world.again = false → runner.pending = []
  idle : world.running = none ↔ world.loop = .idle
  known : ∀ call ∈ world.flushes, runner.Known call
  waiting : ∀ call ∈ runner.pending, call.before ⊆ world.table.committed
  early : since ⊆ world.table.committed
  taken : ∀ call ∈ runner.taken, call.before ⊆ since
  settled : ∀ call ∈ runner.settled, call.before ⊆ world.table.published
  claimed : ∀ row ∈ world.table.claimed, row ∈ world.table.published ∨ row ∈ world.loop.inHand
  inHand : world.loop.inHand ⊆ world.table.claimed
  published : world.table.published ⊆ world.table.claimed
  round : world.loop.claimedAll = true → ∀ row ∈ since,
    row ∈ world.table.published ∨ row ∈ world.loop.inHand
  current : ∀ run, world.running = some run → run < world.runs
  calls : ∀ call ∈ world.flushes, call.run < world.runs
  past : ∀ call ∈ world.flushes, world.running ≠ some call.run → call ∈ runner.settled
  resolved : ∀ run ∈ world.resolved, run < world.runs ∧ world.running ≠ some run

theorem start_sound : Sound (World.start : World ρ) Runner.idle [] where
  runs := idle_sound
  phase := rfl
  asked := fun _ => rfl
  idle := ⟨fun _ => rfl, fun _ => rfl⟩
  known := by simp [World.start]
  waiting := by simp [Runner.idle]
  early := List.nil_subset _
  taken := by simp [Runner.idle]
  settled := by simp [Runner.idle]
  claimed := by simp [World.start]
  inHand := List.nil_subset _
  published := List.nil_subset _
  round := by simp
  current := by simp [World.start]
  calls := by simp [World.start]
  past := by simp [World.start]
  resolved := by simp [World.start]

section

variable {limit : Nat} {bytes : ρ → Nat} {world next : World ρ} {runner : Runner (Flush ρ)}
  {since : List ρ}

theorem Sound.commit {row : ρ} (sound : Sound world runner since)
    : Sound { world with
        table := { world.table with committed := world.table.committed ++ [row] } }
      runner since :=
  { sound with
    waiting := fun call member =>
      List.Subset.trans (sound.waiting call member) (List.subset_append_left _ _)
    early := List.Subset.trans sound.early (List.subset_append_left _ _) }

theorem Sound.flush_waits {run : Nat} (sound : Sound world runner since)
    (running : world.running = some run) (live : world.loop ≠ .ended)
    : Sound { world with
        again := true
        flushes := world.flushes ++ [⟨run, world.table.committed⟩] }
      (runner.ask ⟨run, world.table.committed⟩) since := by
  have open_ : runner.phase = .working ∨ runner.phase = .returned := by
    have busy : world.loop ≠ .idle := fun idle => by simp [sound.idle.mpr idle] at running
    rw [sound.phase]
    cases loop : world.loop <;> simp_all [Loop.phase]
  have step := SingleRunner.Step.wait (⟨run, world.table.committed⟩ : Flush ρ) open_
  exact { sound with
    runs := sound.runs.step step
    asked := by simp
    known := by
      intro call member
      rcases List.mem_append.mp member with member | member
      · exact sound.runs.known step (sound.known call member)
      · exact Or.inl (List.mem_append_right _ member)
    waiting := by
      intro call member
      rcases List.mem_append.mp member with member | member
      · exact sound.waiting call member
      · rw [List.mem_singleton.mp member]
        exact List.Subset.refl _
    calls := by
      intro call member
      rcases List.mem_append.mp member with member | member
      · exact sound.calls call member
      · rw [List.mem_singleton.mp member]
        exact sound.current run running
    past := by
      intro call member other
      rcases List.mem_append.mp member with member | member
      · exact sound.past call member other
      · rw [List.mem_singleton.mp member] at other
        exact absurd running other }

/-- A flush that finds no run starts one, whose first round serves it. -/
theorem Sound.flush_starts (sound : Sound world runner since) (free : world.running = none)
    : Sound { world with
        again := false
        running := some world.runs
        loop := .claiming
        runs := world.runs + 1
        flushes := world.flushes ++ [⟨world.runs, world.table.committed⟩] }
      (runner.ask ⟨world.runs, world.table.committed⟩).take world.table.committed := by
  have loop := sound.idle.mp free
  have phase : runner.phase = .idle := by rw [sound.phase, loop]; rfl
  have step := SingleRunner.Step.start (⟨world.runs, world.table.committed⟩ : Flush ρ) phase
  exact { sound with
    runs := sound.runs.step step
    phase := rfl
    asked := fun _ => rfl
    idle := by simp
    known := by
      intro call member
      rcases List.mem_append.mp member with member | member
      · exact sound.runs.known step (sound.known call member)
      · exact Or.inr (Or.inl (List.mem_append_right _ member))
    waiting := by simp [Runner.take]
    early := List.Subset.refl _
    taken := by
      intro call member
      rcases List.mem_append.mp member with member | member
      · exact sound.waiting call member
      · rw [List.mem_singleton.mp member]
        exact List.Subset.refl _
    claimed := by
      intro row member
      simpa [loop, Loop.inHand] using sound.claimed row member
    inHand := List.nil_subset _
    round := by simp [Loop.claimedAll]
    current := by simp
    calls := by
      intro call member
      rcases List.mem_append.mp member with member | member
      · exact (sound.calls call member).trans (Nat.lt_succ_self _)
      · rw [List.mem_singleton.mp member]
        exact Nat.lt_succ_self _
    past := by
      intro call member other
      rcases List.mem_append.mp member with member | member
      · exact sound.past call member (by simp [free])
      · rw [List.mem_singleton.mp member] at other
        exact absurd rfl other
    resolved := by
      intro run member
      have bound := (sound.resolved run member).1
      exact ⟨bound.trans (Nat.lt_succ_self _), by simpa using bound.ne'⟩ }

theorem Sound.claim [DecidableEq ρ] (sound : Sound world runner since) (loop : world.loop = .claiming)
    : Sound { world with
        loop := .next (claimPublications limit bytes world.table).1
          (claimPublications limit bytes world.table).2.1
        table := (claimPublications limit bytes world.table).2.2 }
      runner since :=
  { sound with
    phase := by rw [sound.phase, loop]; rfl
    idle := by simp [sound.idle, loop]
    claimed := by
      intro row member
      rcases List.mem_append.mp member with member | member
      · have known := sound.claimed row member
        rw [loop] at known
        exact Or.inl (known.resolve_right List.not_mem_nil)
      · exact Or.inr member
    inHand := List.subset_append_right _ _
    published := List.Subset.trans sound.published (List.subset_append_left _ _)
    round := by
      intro last row member
      have last : (claimPublications limit bytes world.table).2.1 = false := by
        simpa [Loop.claimedAll] using last
      rcases claimPublications_all last (sound.early member) with published | claimed | fresh
      · exact Or.inl published
      · have known := sound.claimed row claimed
        rw [loop] at known
        exact Or.inl (known.resolve_right List.not_mem_nil)
      · exact Or.inr fresh }

theorem Sound.goes_on {loop : Loop ρ} (sound : Sound world runner since)
    (working : world.loop.phase = .working) (still : loop.phase = .working)
    (same : loop.inHand = world.loop.inHand)
    (last : loop.claimedAll = true → world.loop.claimedAll = true)
    : Sound { world with loop } runner since :=
  { sound with
    phase := by rw [sound.phase, working, still]
    idle := by
      rw [sound.idle]
      constructor <;> intro idle <;> simp_all [Loop.phase]
    claimed := by
      intro row member
      rw [same]
      exact sound.claimed row member
    inHand := by
      rw [same]
      exact sound.inHand
    round := by
      intro all row member
      rw [same]
      exact sound.round (last all) row member }

theorem Sound.returns (sound : Sound world runner since) (loop : world.loop = .next [] false)
    : Sound { world with loop := .returned } runner.finish since := by
  have phase : runner.phase = .working := by rw [sound.phase, loop]; rfl
  have step := SingleRunner.Step.finish phase
  have done : ∀ row ∈ since, row ∈ world.table.published := by
    intro row member
    have known := sound.round (by rw [loop]; rfl) row member
    rw [loop] at known
    exact known.resolve_right List.not_mem_nil
  exact { sound with
    runs := sound.runs.step step
    phase := rfl
    idle := by simp [sound.idle, loop]
    known := fun call member => sound.runs.known step (sound.known call member)
    taken := by simp [Runner.finish]
    settled := by
      intro call member
      rcases List.mem_append.mp member with member | member
      · exact sound.settled call member
      · exact fun row inside => done row (sound.taken call member inside)
    claimed := by
      intro row member
      have known := sound.claimed row member
      rw [loop] at known
      exact known
    inHand := List.nil_subset _
    round := fun _ row member => Or.inl (done row member)
    past := fun call member other => List.mem_append_left _ (sound.past call member other) }

theorem Sound.ack {row : ρ} {rest : List ρ} {more : Bool} (sound : Sound world runner since)
    (loop : world.loop = .acking row rest more)
    : Sound { world with
        loop := .next rest more
        table := { world.table with published := world.table.published ++ [row] } }
      runner since := by
  have hand : world.loop.inHand = row :: rest := by rw [loop]; rfl
  have moved : ∀ other, other ∈ world.table.published ∨ other ∈ world.loop.inHand →
      other ∈ world.table.published ++ [row] ∨ other ∈ rest := by
    intro other known
    rw [hand, List.mem_cons] at known
    rw [List.mem_append, List.mem_singleton]
    tauto
  exact { sound with
    phase := by rw [sound.phase, loop]; rfl
    idle := by simp [sound.idle, loop]
    settled := fun call member =>
      List.Subset.trans (sound.settled call member) (List.subset_append_left _ _)
    claimed := fun other member => moved other (sound.claimed other member)
    inHand := fun other member => sound.inHand (hand ▸ List.mem_cons_of_mem _ member)
    published := by
      intro other member
      rcases List.mem_append.mp member with member | member
      · exact sound.published member
      · rw [List.mem_singleton.mp member]
        exact sound.inHand (hand ▸ List.mem_cons_self)
    round := fun last other member => moved other (sound.round (by rw [loop]; exact last) other
      member) }

/-- Where someone asked again, the loop starts another round, which takes every request. -/
theorem Sound.looks_again (sound : Sound world runner since) (loop : world.loop = .returned)
    : Sound { world with again := false, loop := .claiming } runner.take
      world.table.committed := by
  have phase : runner.phase = .returned := by rw [sound.phase, loop]; rfl
  have step := SingleRunner.Step.again phase
  exact { sound with
    runs := sound.runs.step step
    phase := rfl
    asked := fun _ => rfl
    idle := by simp [sound.idle, loop]
    known := fun call member => sound.runs.known step (sound.known call member)
    waiting := by simp [Runner.take]
    early := List.Subset.refl _
    taken := sound.waiting
    claimed := by
      intro row member
      have known := sound.claimed row member
      rw [loop] at known
      exact known
    inHand := List.nil_subset _
    round := by simp [Loop.claimedAll] }

theorem Sound.ends (sound : Sound world runner since) (loop : world.loop = .returned)
    (quiet : world.again = false)
    : Sound { world with loop := .ended } (runner.inPhase .ended) since := by
  have phase : runner.phase = .returned := by rw [sound.phase, loop]; rfl
  have step := SingleRunner.Step.last phase (sound.asked quiet)
  exact { sound with
    runs := sound.runs.step step
    phase := rfl
    idle := by simp [sound.idle, loop]
    claimed := by
      intro row member
      have known := sound.claimed row member
      rw [loop] at known
      exact known
    inHand := List.nil_subset _
    round := by simp [Loop.claimedAll] }

theorem Sound.clear (sound : Sound world runner since) (loop : world.loop = .ended)
    : Sound { world with running := none, loop := .idle } (runner.inPhase .idle) since := by
  have phase : runner.phase = .ended := by rw [sound.phase, loop]; rfl
  have step := SingleRunner.Step.clear phase
  exact { sound with
    runs := sound.runs.step step
    phase := rfl
    idle := by simp
    claimed := by
      intro row member
      have known := sound.claimed row member
      rw [loop] at known
      exact known
    inHand := List.nil_subset _
    round := by simp [Loop.claimedAll]
    current := by simp
    past := fun call member _ =>
      sound.runs.settled (by simp [phase]) (by simp [phase]) (sound.known call member)
    resolved := fun run member => ⟨(sound.resolved run member).1, by simp⟩ }

theorem Sound.step [DecidableEq ρ] {event : Event ρ} (sound : Sound world runner since)
    (open_ : LoopOpen world event) (taken : Relay.step limit bytes world event = some next)
    : ∃ runner since, Sound next runner since := by
  cases event with
  | commit row =>
      simp only [Relay.step] at taken
      split at taken
      · cases taken
      · obtain rfl := Option.some.inj taken
        exact ⟨runner, since, sound.commit⟩
  | flush =>
      obtain rfl := Option.some.inj taken
      simp only [flush]
      split
      · next run running => exact ⟨_, since, sound.flush_waits running open_⟩
      · next free => exact ⟨_, _, sound.flush_starts free⟩
  | claim =>
      simp only [Relay.step] at taken
      split at taken
      · next loop =>
          obtain rfl := Option.some.inj taken
          exact ⟨runner, since, sound.claim loop⟩
      · cases taken
  | resume =>
      simp only [Relay.step] at taken
      split at taken
      · next row rest more loop =>
          obtain rfl := Option.some.inj taken
          exact ⟨runner, since, sound.goes_on (by rw [loop]; rfl) rfl (by rw [loop]; rfl)
            (by rw [loop]; exact id)⟩
      · next loop =>
          obtain rfl := Option.some.inj taken
          exact ⟨runner, since, sound.goes_on (by rw [loop]; rfl) rfl (by rw [loop]; rfl)
            (by simp [Loop.claimedAll])⟩
      · next loop =>
          obtain rfl := Option.some.inj taken
          exact ⟨_, since, sound.returns loop⟩
      · cases taken
  | publish =>
      simp only [Relay.step] at taken
      split at taken
      · next row rest more loop =>
          obtain rfl := Option.some.inj taken
          exact ⟨runner, since, sound.goes_on (by rw [loop]; rfl) rfl (by rw [loop]; rfl)
            (by rw [loop]; exact id)⟩
      · cases taken
  | ack =>
      simp only [Relay.step] at taken
      split at taken
      · next row rest more loop =>
          obtain rfl := Option.some.inj taken
          exact ⟨runner, since, sound.ack loop⟩
      · cases taken
  | look =>
      simp only [Relay.step] at taken
      split at taken
      · next loop =>
          split at taken
          · obtain rfl := Option.some.inj taken
            exact ⟨_, _, sound.looks_again loop⟩
          · next quiet =>
              obtain rfl := Option.some.inj taken
              exact ⟨_, since, sound.ends loop (by simpa using quiet)⟩
      · cases taken
  | clear =>
      simp only [Relay.step] at taken
      split at taken
      · next loop =>
          obtain rfl := Option.some.inj taken
          exact ⟨_, since, sound.clear loop⟩
      · cases taken
  | resolve run =>
      simp only [Relay.step] at taken
      split at taken
      · next free =>
          obtain rfl := Option.some.inj taken
          refine ⟨runner, since, { sound with resolved := ?_ }⟩
          intro other member
          rcases List.mem_append.mp member with member | member
          · exact sound.resolved other member
          · rw [List.mem_singleton.mp member]
            exact free
      · cases taken

theorem Run.sound [DecidableEq ρ] (run : Run limit bytes LoopOpen world)
    : ∃ runner since, Sound world runner since := by
  induction run with
  | start => exact ⟨Runner.idle, [], start_sound⟩
  | step _ open_ taken ih =>
      obtain ⟨runner, since, sound⟩ := ih
      exact sound.step open_ taken

theorem Sound.published_of_resolved {call : Flush ρ} (sound : Sound world runner since)
    (member : call ∈ world.flushes) (resolved : call.run ∈ world.resolved)
    : call.before ⊆ world.table.published :=
  sound.settled call (sound.past call member (sound.resolved call.run resolved).2)

end

/-- In every run that calls no flush while the loop is over and `#running` is still set, no flush is
lost: its rows are claimed when its promise resolves, and no row is left when all have.
-/
theorem relay_loses_no_flush [DecidableEq ρ] (limit : Nat) (bytes : ρ → Nat) (world : World ρ)
    (run : Run limit bytes LoopOpen world)
    : NoLostWakeup world := by
  obtain ⟨runner, since, sound⟩ := run.sound
  constructor
  · intro call member resolved row inside
    exact sound.published (sound.published_of_resolved member resolved inside)
  · intro all call member row inside
    exact sound.published_of_resolved member (all call member) inside

instance [DecidableEq ρ] (world : World ρ) (event : Event ρ) : Decidable (LoopOpen world event) := by
  cases event <;> simp only [LoopOpen] <;> infer_instance

def execute [DecidableEq ρ] (limit : Nat) (bytes : ρ → Nat)
    (allowed : World ρ → Event ρ → Bool) (world : World ρ) : List (Event ρ) → Option (World ρ)
  | [] => some world
  | event :: rest =>
      if allowed world event then
        (step limit bytes world event).bind fun next => execute limit bytes allowed next rest
      else none

theorem Run.execute [DecidableEq ρ] {limit : Nat} {bytes : ρ → Nat}
    {allowed : World ρ → Event ρ → Prop} {test : World ρ → Event ρ → Bool}
    (sound : ∀ world event, test world event = true → allowed world event)
    {events : List (Event ρ)} {world next : World ρ} (run : Run limit bytes allowed world)
    (executed : Relay.execute limit bytes test world events = some next)
    : Run limit bytes allowed next := by
  induction events generalizing world with
  | nil =>
      obtain rfl := Option.some.inj executed
      exact run
  | cons event rest ih =>
      simp only [Relay.execute] at executed
      split at executed
      · next meets =>
          obtain ⟨middle, taken, executed⟩ := Option.bind_eq_some_iff.mp executed
          exact ih (run.step (sound _ _ meets) taken) executed
      · cases executed

def firstRun : List (Event Bool) :=
  [.commit false, .flush, .claim, .resume, .publish, .ack, .resume, .look]

/-- A second row is committed and flushed before the callback that clears `#running`. -/
def lateFlush : List (Event Bool) :=
  firstRun ++ [.commit true, .flush, .clear, .resolve 0]

/-- The late flush gets the promise of the ended run: all promises have resolved, and its row is
neither published nor claimed.
-/
theorem relay_loses_late_flush
    : ∃ world, Run 50 (fun _ => 1) (fun _ _ => True) world ∧ ¬NoLostWakeup (ρ := Bool) world := by
  have executed : ∃ world, execute 50 (fun _ => 1) (fun _ _ => true) .start lateFlush = some world
      ∧ ⟨0, [false, true]⟩ ∈ world.flushes ∧ 0 ∈ world.resolved
      ∧ true ∉ world.table.claimed := ⟨_, rfl, by decide, by decide, by decide⟩
  obtain ⟨world, executed, member, resolved, unclaimed⟩ := executed
  refine ⟨world, Run.start.execute (fun _ _ _ => trivial) executed, fun covered => ?_⟩
  exact unclaimed (covered.1 _ member resolved true (by decide))

def nextFlush : List (Event Bool) :=
  firstRun ++ [.clear, .commit true, .flush, .claim, .resume, .publish, .ack, .resume, .look,
    .clear, .resolve 0, .resolve 1]

/-- The second row gets a run of its own. -/
theorem relay_serves_next_flush
    : ∃ world, execute 50 (fun _ => 1) (fun world event => decide (LoopOpen world event)) .start
        nextFlush = some world ∧ NoLostWakeup world := by
  obtain ⟨world, executed⟩ : ∃ world, execute 50 (fun _ => 1)
      (fun world event => decide (LoopOpen world event)) .start nextFlush = some world := ⟨_, rfl⟩
  exact ⟨world, executed, relay_loses_no_flush 50 (fun _ => 1) world
    (Run.start.execute (fun _ _ open_ => of_decide_eq_true open_) executed)⟩

end PiFabric.Records.Relay
