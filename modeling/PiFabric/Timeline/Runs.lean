import PiFabric.Timeline.Certify

/-! Runs of transitions, verifications and reads by any number of writers on one mesh, and the chain
of committed heads.
-/

namespace PiFabric.Timeline

open JsString
open Interleaving (Prog Protocol Config Step Run)

variable {ι : Type} {maxReadEvents : Nat}

inductive Request where
  | transition (input : TransitionInput)
  | verify (input : VerifyInput)
  | getHead
  | get

inductive Result where
  | transition (outcome : Except TransitionError (Event × Option Head))
  | verify (outcome : Except Failure VerificationReport)
  | getHead (outcome : Except Failure (Option Head))
  | get (outcome : Except Failure Report)

def Request.program : Request → Prog Call Reply Result
  | .transition input => .transition <$> Timeline.transition input
  | .verify input => .verify <$> Timeline.verify input
  | .getHead => .getHead <$> Timeline.getHead.run
  | .get => .get <$> report.run

abbrev State (ι : Type) : Type :=
  Config ι (World ι) Call Reply Result

def start (requests : ι → Request) : State ι where
  world := emptyWorld ι
  threads := fun thread => (requests thread).program

/-- What a call has returned: a rejected transition has no marker, and a head that was read has one.
-/
def Returned (thread : ι) (w : World ι) : Result → Prop
  | .transition outcome => Outcome w thread outcome
  | .getHead outcome => ∀ head, outcome = .ok (some head) → w.Marked head.transitionId
  | .verify _ | .get _ => True

variable {w : World ι} {thread : ι}

theorem sound_report (known : Inv w)
    : Sound maxReadEvents thread (fun _ _ => True) report.run w := by
  refine sound_then known (fun _ _ _ => trivial) sound_getHead fun w1 stored l1 _ => ?_
  exact sound_then l1.inv (fun _ _ _ => trivial) sound_history fun _ _ _ _ _ _ => trivial

/-- Every request is sound on an empty mesh. -/
theorem sound_start (requests : ι → Request)
    : (protocol ι maxReadEvents).AllSound Returned (start requests) := by
  refine ⟨inv_emptyWorld, fun thread => ?_⟩
  have known : Inv (emptyWorld ι) := inv_emptyWorld
  change Sound maxReadEvents thread (Returned thread) (requests thread).program (emptyWorld ι)
  cases requests thread with
  | transition input =>
      refine Protocol.Sound.map ?_
      exact sound_transition known (by simp [Publishes, emptyWorld])
  | verify input =>
      refine Protocol.Sound.map ?_
      exact sound_verify known
  | getHead =>
      refine Protocol.Sound.map (Protocol.Sound.weaken sound_getHead ?_)
      exact fun w outcome _ _ stated head same => (stated.2 head same).marked
  | get =>
      refine Protocol.Sound.map ?_
      exact sound_report known

variable [DecidableEq ι]

/-- The states that any interleaving of the requests reaches. -/
abbrev Reaches (maxReadEvents : Nat) (requests : ι → Request) (state : State ι) : Prop :=
  Run (Performs maxReadEvents) (start requests) state

variable {requests : ι → Request} {state : State ι}

theorem Reaches.sound (h : Reaches maxReadEvents requests state)
    : (protocol ι maxReadEvents).AllSound Returned state :=
  ((sound_start requests).run h).1

variable {later : State ι}

theorem Reaches.grows (h : Reaches maxReadEvents requests state)
    (run : Run (Performs maxReadEvents) state later)
    : Grows state.world later.world :=
  (h.sound.run run).2

/-- The steps of which no transition that lost a compare-and-swap re-reads an uncommitted head. -/
def CalmPerforms (maxReadEvents : Nat) : Interleaving.Perform ι (World ι) Call Reply :=
  fun thread w call reply w' =>
    Performs maxReadEvents thread w call reply w' ∧ (call = .reread → w.HeadCommitted)

omit [DecidableEq ι] in
theorem CalmPerforms.hasty {w' : World ι} {call : Call} {reply : Reply call}
    (h : CalmPerforms maxReadEvents thread w call reply w')
    : w'.hasty = w.hasty := by
  obtain ⟨⟨choice, performed⟩, calm⟩ := h
  cases call with
  | reread =>
      simp only [World.perform, calm rfl, if_true] at performed
      split at performed <;> cases performed <;> rfl
  | _ =>
      simp only [World.perform] at performed
      try split_ifs at performed
      all_goals
        cases performed
        rfl

theorem run_of_calm (run : Run (CalmPerforms maxReadEvents) state later)
    : Run (Performs maxReadEvents) state later := by
  induction run with
  | refl => exact .refl
  | tail _ last ih =>
      cases last with
      | call at_ performed => exact ih.tail (.call at_ performed.1)

theorem hasty_of_calm (run : Run (CalmPerforms maxReadEvents) state later)
    : later.world.hasty = state.world.hasty := by
  induction run with
  | refl => rfl
  | tail _ last ih =>
      cases last with
      | call at_ performed => exact performed.hasty.trans ih

/-- A transition whose call has failed before its commit marker. -/
def Failed (state : State ι) (transitionId : JsString) : Prop :=
  ∃ thread error, state.threads thread = .done (.transition (.error error))
    ∧ (∃ proposal ∈ state.world.log, proposal.author = thread
      ∧ proposal.event.id = transitionId
      ∧ ∃ data, proposal.event.payload = .transition .proposed data)
    ∧ ¬state.world.Marked transitionId

/-- A failed transition never gets a marker. -/
theorem Failed.not_marked {transitionId : JsString} (h : Failed state transitionId)
    (reached : Reaches maxReadEvents requests state)
    (run : Run (Performs maxReadEvents) state later)
    : ¬later.world.Marked transitionId := by
  obtain ⟨thread, error, finished, ⟨proposal, member, own, rfl, data, same⟩, unmarked⟩ := h
  have sound := (reached.sound.run run).1
  have returned := sound.finished (run.done finished)
  have inside := (reached.grows run).mem member
  cases error with
  | refused cause => exact Unmarked.not_marked returned sound.1 inside own
  | rejected cause rollback reporting => exact Unmarked.not_marked returned sound.1 inside own
  | proofPending cause =>
      exact absurd (reached.sound.finished finished proposal member own data same) unmarked

/-- In a calm run every head was put over none, or over a marked one that its transition declared.
-/
theorem proper_of_calm (run : Run (CalmPerforms maxReadEvents) (start requests) state)
    {advance : Advance ι} (member : advance ∈ state.world.advances)
    : Proper state.world advance := by
  have sound : (protocol ι maxReadEvents).AllSound Returned state := Reaches.sound (run_of_calm run)
  rcases sound.1.advances advance member with proper | hasty
  · exact proper
  · rw [hasty_of_calm run] at hasty
    exact absurd hasty (by simp [start, emptyWorld])

/-- Committed transitions form a chain of committed heads, in every run in which each transition
that lost a compare-and-swap on the head re-reads no head, or one that has its commit marker. A
committed transition put its head; the head this replaced, if any, was committed, and is at what the
transition declared unless it was forced. A transition that failed before its marker is never read
as the head, nor ever replaced by a committed one.
-/
theorem committed_transitions_form_a_chain (requests : ι → Request) {state : State ι}
    (run : Run (CalmPerforms maxReadEvents) (start requests) state)
    : (∀ transitionId, state.world.Committed transitionId →
        ∃ advance ∈ state.world.advances, advance.input.payload.transitionId = transitionId)
      ∧ (∀ advance ∈ state.world.advances,
        state.world.Committed advance.input.payload.transitionId →
          advance.input.force = false → ∀ declared, advance.input.fromLabel = some declared →
            ∀ head, advance.replaced = some head →
              state.world.Committed head.transitionId ∧ head.toLabel = declared)
      ∧ ∀ transitionId, Failed state transitionId →
        ∀ later, Run (CalmPerforms maxReadEvents) state later →
          (∀ thread head, later.threads thread = .done (.getHead (.ok (some head))) →
            head.transitionId ≠ transitionId)
          ∧ ∀ advance ∈ later.world.advances,
            later.world.Committed advance.input.payload.transitionId →
              ∀ head, advance.replaced = some head → head.transitionId ≠ transitionId := by
  have reached : Reaches maxReadEvents requests state := run_of_calm run
  have inv : Inv state.world := reached.sound.1
  refine ⟨fun _ committed => inv.advanced _ committed.1, ?_, ?_⟩
  · intro advance member _ free declared same head replaced
    obtain ⟨marked, isDeclared⟩ := proper_of_calm run member head replaced
    exact ⟨⟨marked, inv.exclusive _ marked⟩, isDeclared free declared same⟩
  · intro transitionId failed later further
    have unmarked := failed.not_marked reached (run_of_calm further)
    have sound : (protocol ι maxReadEvents).AllSound Returned later :=
      Reaches.sound (run_of_calm (run.trans further))
    refine ⟨fun thread head finished same => ?_, fun advance member _ head replaced same => ?_⟩
    · exact unmarked (same ▸ sound.finished finished head rfl)
    · exact unmarked (same ▸ (proper_of_calm (run.trans further) member head replaced).1)

/-- Two transitions of an empty mesh: to `y`, and from `y` to `z`. -/
def twoTransitions : Bool → Request
  | false => .transition { label := lit "first", toLabel := lit "y" }
  | true => .transition { label := lit "second", fromLabel := some (lit "y"), toLabel := lit "z" }

def idOf (unit : UInt16) : JsString :=
  List.replicate 36 unit

/-- Calls that re-read committed heads only, as the choices decide them. -/
def calmPerform (maxReadEvents : Nat) (thread : ι) (w : World ι) (call : Call) (choice : Choice)
    : Option (Reply call × World ι) :=
  if call.isReread && !decide w.HeadCommitted then none
  else w.perform maxReadEvents thread call choice

omit [DecidableEq ι] in
theorem calm_of_calmPerform {w' : World ι} {call : Call} {choice : Choice} {reply : Reply call}
    (h : calmPerform maxReadEvents thread w call choice = some (reply, w'))
    : CalmPerforms maxReadEvents thread w call reply w' := by
  unfold calmPerform at h
  split at h
  · exact absurd h (by simp)
  · next calm =>
      refine ⟨⟨choice, h⟩, ?_⟩
      rintro rfl
      simpa [Call.isReread] using calm

def inTurn : List (Bool × Choice) :=
  [(false, {}), (false, {}), (false, {}), (false, {}), (false, { id := idOf 0x61, sequence := 1 }),
    (false, {}), (false, {}), (false, { id := idOf 0x62, sequence := 2 }), (false, {}),
    (true, {}), (true, {}), (true, {}), (true, { id := idOf 0x63, sequence := 3 }), (true, {}),
    (true, {}), (true, { id := idOf 0x64, sequence := 4 }), (true, {})]


theorem committed_transitions_form_a_chain_in_turn
    : ∃ state : State Bool, (∃ advance ∈ state.world.advances,
        state.world.Committed advance.input.payload.transitionId
          ∧ ∃ head, advance.replaced = some head ∧ state.world.Committed head.transitionId)
      ∧ ∀ transitionId, state.world.Committed transitionId →
        ∃ advance ∈ state.world.advances, advance.input.payload.transitionId = transitionId := by
  have executed : (Interleaving.execute (calmPerform 100) (start twoTransitions) inTurn).any
      (fun state => state.world.advances.any fun advance =>
        decide (state.world.Committed advance.input.payload.transitionId)
          && advance.replaced.any fun head => decide (state.world.Committed head.transitionId))
      = true := by
    decide +kernel
  obtain ⟨state, same, checked⟩ := Option.any_eq_true _ _ |>.mp executed
  refine ⟨state, ?_, (committed_transitions_form_a_chain twoTransitions
    (Interleaving.run_of_execute calm_of_calmPerform same)).1⟩
  simpa [List.any_eq_true, Option.any_eq_true] using checked

/-- Both find no head; the first puts its head, the second loses its compare-and-swap, re-reads that
head and replaces it; the marker of the first cannot be published.
-/
def overtaken : List (Bool × Choice) :=
  [(true, {}), (true, {}), (true, {}), (true, {}), (false, {}), (false, {}), (false, {}),
    (false, {}), (false, { id := idOf 0x61, sequence := 1 }), (false, {}), (false, {}),
    (true, { id := idOf 0x62, sequence := 2 }), (true, {}), (true, {}), (true, {}), (true, {}),
    (true, {}), (false, { fails := true }), (false, {}),
    (false, { id := idOf 0x63, sequence := 3 }), (true, { id := idOf 0x64, sequence := 4 }),
    (true, {})]

theorem overtaken_head_was_rejected
    : ∃ state, Reaches 100 twoTransitions state ∧ ∃ advance ∈ state.world.advances,
        state.world.Committed advance.input.payload.transitionId
          ∧ advance.input.force = false ∧ advance.input.fromLabel = some (lit "y")
          ∧ ∃ head, advance.replaced = some head ∧ state.world.Rejected head.transitionId
            ∧ ¬state.world.Committed head.transitionId := by
  have executed : (Interleaving.execute (fun thread w call choice =>
      w.perform 100 thread call choice) (start twoTransitions) overtaken).any
      (fun state => state.world.advances.any fun advance =>
        decide (state.world.Committed advance.input.payload.transitionId
          ∧ advance.input.force = false ∧ advance.input.fromLabel = some (lit "y"))
          && advance.replaced.any fun head => decide (state.world.Rejected head.transitionId
            ∧ ¬state.world.Committed head.transitionId)) = true := by
    decide +kernel
  obtain ⟨state, same, checked⟩ := Option.any_eq_true _ _ |>.mp executed
  refine ⟨state, Interleaving.run_of_execute (fun decided => ⟨_, decided⟩) same, ?_⟩
  simpa [List.any_eq_true, Option.any_eq_true, and_assoc] using checked

end PiFabric.Timeline
