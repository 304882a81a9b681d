import PiFabric.Foundation.SingleRunner
import PiFabric.Timeline.Runs

/-! One state store at work on a mesh that nobody else writes: its operations run one after another,
and others at most publish events of other kinds on its topic. The tombstones of deleted keys are
kept; any call may fail.
-/

namespace PiFabric.Timeline

open JsString
open Interleaving (Prog)
open Program

def leavesProject (relative : JsString) : Bool :=
  relative = lit ".." || (lit "../").isPrefixOf relative || (lit "/").isPrefixOf relative

/-- The loop of `normalizeComplexityFiles`, with the set it has filled so far. -/
def normalizeFiles (relative : JsString → JsString) (normalized : List JsString)
    : List JsString → Except Failure (List JsString)
  | [] => .ok normalized
  | file :: rest =>
      if (trim file).isEmpty then normalizeFiles relative normalized rest
      else if leavesProject (relative file) then
        .error (.refused (lit "State complexity file must be inside the project cwd: " ++ file))
      else if normalized.contains (relative file) then normalizeFiles relative normalized rest
      else normalizeFiles relative (normalized ++ [relative file]) rest

/-- `normalizeComplexityFiles`; a file relative to the project is what the host's paths say. -/
def normalizeComplexityFiles (relative : JsString → JsString) (files : List JsString)
    : Except Failure (List JsString) :=
  normalizeFiles relative [] files

variable {relative : JsString → JsString}

theorem nodup_normalizeFiles {files normalized result : List JsString} (distinct : normalized.Nodup)
    (h : normalizeFiles relative normalized files = .ok result)
    : result.Nodup := by
  induction files generalizing normalized with
  | nil =>
      cases h
      exact distinct
  | cons file rest ih =>
      simp only [normalizeFiles] at h
      split_ifs at h with blank outside known
      · exact ih distinct h
      · exact ih distinct h
      · refine ih (List.nodup_append.mpr ⟨distinct, List.nodup_singleton _, ?_⟩) h
        intro found member other single same
        rw [List.mem_singleton.mp single] at same
        exact known (by simpa [same] using member)

theorem nodup_normalizeComplexityFiles {files result : List JsString}
    (h : normalizeComplexityFiles relative files = .ok result)
    : result.Nodup :=
  nodup_normalizeFiles List.nodup_nil h

def refuseFiles (input : TransitionInput) (failure : Failure) : Program Empty := do
  let physicalCurrent ← get .current
  let current ← getHead
  let _ ← versionOf .current physicalCurrent
  check (if physicalCurrent.isSome && current.isNone then some .quarantined else none)
  check (checkFrom input current)
  let _ ← now
  throw failure

def refusal : Except Failure Empty → Failure
  | .error failure => failure

def transitionOf (relative : JsString → JsString) (input : TransitionInput)
    : Prog Call Reply (Except TransitionError (Event × Option Head)) :=
  match input.complexity with
  | none => transition input
  | some files =>
      match normalizeComplexityFiles relative files with
      | .ok normalized => transition { input with complexity := some normalized }
      | .error failure => do
          let refused ← (refuseFiles input failure).run
          pure (.error (.refused (refusal refused)))

def filesOf (relative : JsString → JsString) (input : TransitionInput) : List JsString :=
  match input.complexity with
  | none => []
  | some files =>
      match normalizeComplexityFiles relative files with
      | .ok normalized => normalized
      | .error _ => []

variable {ι : Type}

/-- The calls of a mesh that forgets no tombstone; where it works, none fails. -/
def Serves (maxReadEvents : Nat) (working : Bool) : Interleaving.Perform ι (World ι) Call Reply :=
  fun thread w call reply w' =>
    ∃ choice : Choice, choice.evicted = false ∧ (working = true → choice.fails = false)
      ∧ w.perform maxReadEvents thread call choice = some (reply, w')

theorem Serves.performs {maxReadEvents : Nat} {working : Bool} {thread : ι} {w w' : World ι}
    {call : Call} {reply : Reply call}
    (h : Serves maxReadEvents working thread w call reply w')
    : Performs maxReadEvents thread w call reply w' :=
  h.imp fun _ served => served.2.2

inductive Operation where
  | transition (relative : JsString → JsString) (input : TransitionInput)
  | verify (input : VerifyInput)
  | getHead
  | get

def Operation.program : Operation → Prog Call Reply Result
  | .transition relative input => .transition <$> transitionOf relative input
  | .verify input => .verify <$> Timeline.verify input
  | .getHead => .getHead <$> Timeline.getHead.run
  | .get => .get <$> report.run

def Payload.foreign : Payload → Bool
  | .transition .. | .violated _ => true
  | .committed _ | .rejected .. | .certified _ => false

/-- One operation, under an author that has published nothing yet, or one event of another. -/
inductive Turn (maxReadEvents : Nat) : World ι → World ι → Prop
  | operation {w w' : World ι} {thread : ι} {operation : Operation} {result : Result}
      (silent : Publishes w thread [])
      (ran : operation.program.Runs (Serves maxReadEvents false) thread w result w')
      : Turn maxReadEvents w w'
  | event {w : World ι} {author : ι} {choice : Choice} {payload : Payload}
      (appends : w.Appends choice) (foreign : payload.foreign = true)
      : Turn maxReadEvents w (w.append author choice payload none)

/-- What the store and the others do in turn. -/
abbrev Session (maxReadEvents : Nat) : World ι → World ι → Prop :=
  Relation.ReflTransGen (Turn maxReadEvents)

inductive Events : World ι → World ι → Prop
  | none (w : World ι) : Events w w
  | event {w w' : World ι} {author : ι} {choice : Choice} {payload : Payload}
      (events : Events w w') (appends : w'.Appends choice) (foreign : payload.foreign = true)
      : Events w (w'.append author choice payload Option.none)

variable {maxReadEvents : Nat} {w w' : World ι} {thread : ι}

theorem sound_refuseFiles {input : TransitionInput} {failure : Failure}
    : Sound maxReadEvents thread (fun _ _ => True) (refuseFiles input failure).run w := by
  have ignored (w₀ : World ι)
      : Throws maxReadEvents thread (fun _ (_ : Except Failure Empty) => True) w₀ :=
    fun _ _ _ => trivial
  refine sound_get (ignored _) fun w1 l1 => ?_
  refine sound_then l1.inv (ignored _) sound_getHead fun w2 current l2 _ => ?_
  refine sound_then l2.inv (ignored _) sound_versionOf fun w3 version l3 _ => ?_
  refine sound_check (ignored _) fun _ => ?_
  refine sound_check (ignored _) fun _ => ?_
  exact sound_now fun w4 _ _ => sound_throw (ignored w4)

theorem sound_transitionOf {input : TransitionInput} (known : Inv w)
    (silent : Publishes w thread [])
    : Sound maxReadEvents thread (fun _ _ => True) (transitionOf relative input) w := by
  have whole (input : TransitionInput)
      : Sound maxReadEvents thread (fun _ _ => True) (transition input) w :=
    Interleaving.Protocol.Sound.weaken (sound_transition known silent) fun _ _ _ _ _ => trivial
  unfold transitionOf
  split
  · exact whole input
  · split
    · exact whole _
    · exact Interleaving.Protocol.Sound.bind known sound_refuseFiles
        fun _ _ _ _ _ _ _ => trivial

theorem sound_operation {operation : Operation} (known : Inv w) (silent : Publishes w thread [])
    : Sound maxReadEvents thread (fun _ _ => True) operation.program w := by
  cases operation with
  | transition relative input =>
      exact Interleaving.Protocol.Sound.map (sound_transitionOf known silent)
  | verify input => exact Interleaving.Protocol.Sound.map (sound_verify known)
  | getHead =>
      refine Interleaving.Protocol.Sound.map ?_
      exact Interleaving.Protocol.Sound.weaken sound_getHead fun _ _ _ _ _ => trivial
  | get => exact Interleaving.Protocol.Sound.map (sound_report known)

/-- A run of a sound program keeps the invariant. -/
theorem inv_of_runs {α : Type} {program : Prog Call Reply α} {working : Bool} {value : α}
    {post : World ι → α → Prop} (known : Inv w) (sound : Sound maxReadEvents thread post program w)
    (ran : program.Runs (Serves maxReadEvents working) thread w value w')
    : Inv w' :=
  (Prog.Runs.sound (ran.mono Serves.performs) known sound).1

theorem mayPublish_of_foreign {payload : Payload} (foreign : payload.foreign = true)
    : MayPublish w thread payload none := by
  cases payload <;> simp only [Payload.foreign, Bool.false_eq_true] at foreign <;>
    exact ⟨by simp [Payload.names], by simp, by simp, by simp⟩

theorem Turn.inv (h : Turn maxReadEvents w w') (known : Inv w) : Inv w' := by
  cases h with
  | operation silent ran => exact inv_of_runs known (sound_operation known silent) ran
  | event appends foreign => exact known.append appends (mayPublish_of_foreign foreign)

/-- The invariant holds throughout a session. -/
theorem Session.inv (h : Session maxReadEvents w w') (known : Inv w) : Inv w' := by
  induction h with
  | refl => exact known
  | tail _ turn ih => exact turn.inv ih

theorem Events.store (h : Events w w') : w'.store = w.store := by
  induction h with
  | none => rfl
  | event _ _ _ ih => exact ih

theorem Events.log (h : Events w w') : w.log <+: w'.log := by
  induction h with
  | none => exact List.prefix_refl _
  | event _ _ _ ih => exact ih.trans (List.prefix_append ..)

end PiFabric.Timeline
