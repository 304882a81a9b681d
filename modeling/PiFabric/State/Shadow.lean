import PiFabric.Foundation.JsMap
import PiFabric.Foundation.SingleRunner

/-! The shadow mirror: after each committed write of the state file, a backend applies the values
of its keys to a shadow database.
-/

namespace PiFabric.State.Shadow

open SingleRunner

variable {ι κ ε σ : Type}

/-- The operations that `prepare` returns. -/
inductive Op (κ ε : Type) where
  | put (key : κ) (entry : ε)
  | delete (key : κ)

/-- How far the pass of a backend is in `#mirror`. -/
inductive Stage (κ ε σ : Type) where
  | stamping
  | reading (stamp : σ) (rest : List κ) (wanted : JsMap κ (Option ε))
  | opening (stamp : σ) (wanted : JsMap κ (Option ε)) (attempt : Nat)
  /-- `BEGIN IMMEDIATE` has returned and `prepare` has not run. -/
  | holding (stamp : σ) (wanted : JsMap κ (Option ε)) (attempt : Nat)
  /-- `prepare` has run at the instant `instant` of the file. -/
  | prepared (ops : List (Op κ ε)) (instant : Nat)

/-- What one pass covers: every key, or the given ones. -/
structure Want (κ : Type) where
  full : Bool
  keys : List κ

def Want.Covers (want : Want κ) (key : κ) : Prop :=
  want.full = true ∨ key ∈ want.keys

section

variable [DecidableEq κ] [DecidableEq ε]

def listed (file : JsMap κ ε) : JsMap κ (Option ε) where
  entries := file.entries.map fun entry => (entry.1, some entry.2)
  distinct := by
    rw [List.map_map]
    exact file.distinct

/-- The operation that makes the shadow's entry of a key the file's, unless it is (`sameEntry`).
An entry is what `sameEntry` compares: the texts of its value and of its writer.
-/
def opOf (wanted : JsMap κ (Option ε)) (view : JsMap κ ε) (key : κ) : Option (Op κ ε) :=
  let file := (wanted.get? key).join
  if file = view.get? key then none
  else
    match file with
    | some entry => some (.put key entry)
    | none => some (.delete key)

def compared (full : Bool) (wanted : JsMap κ (Option ε)) (view : JsMap κ ε) : List κ :=
  if full then (wanted.keys ++ view.keys).eraseDups else wanted.keys

def applyOp (view : JsMap κ ε) : Op κ ε → JsMap κ ε
  | .put key entry => view.set key entry
  | .delete key => view.delete key

def applyOps (view : JsMap κ ε) (ops : List (Op κ ε)) : JsMap κ ε :=
  ops.foldl applyOp view

omit [DecidableEq ε] in
theorem get?_listed (file : JsMap κ ε) (key : κ)
    : ((listed file).get? key).join = file.get? key := by
  cases held : file.get? key with
  | none =>
      have absent : (listed file).get? key = none := by
        rw [JsMap.get?_eq_none_iff] at held ⊢
        simpa [listed, JsMap.keys, Function.comp_def] using held
      rw [absent]
      rfl
  | some entry =>
      have present : (listed file).get? key = some (some entry) := by
        rw [JsMap.get?_eq_some_iff] at held ⊢
        exact List.mem_map_of_mem (f := fun entry => (entry.1, some entry.2)) held
      rw [present]
      rfl

variable {wanted : JsMap κ (Option ε)} {view : JsMap κ ε}

theorem get?_applyOp_opOf {current : JsMap κ ε} {key : κ} {op : Op κ ε}
    (made : opOf wanted view key = some op) (other : κ)
    : (applyOp current op).get? other
      = if other = key then (wanted.get? key).join else current.get? other := by
  simp only [opOf] at made
  split at made
  · cases made
  · split at made
    · next entry held =>
        obtain rfl := Option.some.inj made
        rw [applyOp, JsMap.get?_set, held]
    · next held =>
        obtain rfl := Option.some.inj made
        rw [applyOp, JsMap.get?_delete, held]

/-- The operations set every compared key to the wanted entry, by induction over the keys: a key
without an operation already has it.
-/
theorem get?_applyOps {current : JsMap κ ε} {keys : List κ}
    (either : ∀ key, current.get? key = view.get? key
      ∨ current.get? key = (wanted.get? key).join) (key : κ)
    : (applyOps current (keys.filterMap (opOf wanted view))).get? key
      = if key ∈ keys then (wanted.get? key).join else current.get? key := by
  induction keys generalizing current with
  | nil => simp [applyOps]
  | cons first rest ih =>
      cases made : opOf wanted view first with
      | none =>
          rw [List.filterMap_cons_none made, ih either]
          by_cases same : key = first
          · subst same
            have held : (wanted.get? key).join = view.get? key := by
              simp only [opOf] at made
              split at made
              · assumption
              · split at made <;> cases made
            have now : current.get? key = (wanted.get? key).join := by
              rcases either key with now | now
              · rw [now, held]
              · exact now
            simp [now]
          · simp [same]
      | some op =>
          have set : ∀ other, (applyOp current op).get? other
              = if other = first then (wanted.get? first).join else current.get? other :=
            get?_applyOp_opOf made
          rw [List.filterMap_cons_some made]
          have next := @ih (applyOp current op) (fun other => by
            rw [set other]
            by_cases same : other = first
            · subst same
              simp
            · simpa [same] using either other)
          rw [applyOps, List.foldl_cons, ← applyOps, next, set key]
          by_cases same : key = first
          · subst same
            simp
          · simp [same]

theorem get?_transaction {want : Want κ} {key : κ}
    (asked : want.full = false → ∀ key, key ∈ want.keys ↔ key ∈ wanted.keys)
    (covers : want.Covers key)
    : (applyOps view ((compared want.full wanted view).filterMap (opOf wanted view))).get? key
      = (wanted.get? key).join := by
  rw [get?_applyOps fun other => Or.inl rfl]
  split
  · rfl
  · next outside =>
      cases full : want.full with
      | false =>
          rcases covers with every | member
          · rw [full] at every
            cases every
          · exact absurd (by simpa [compared, full] using (asked full key).mp member) outside
      | true =>
          simp only [compared, full, if_true, List.mem_eraseDups, List.mem_append, not_or] at outside
          rw [JsMap.get?_eq_none_iff.mpr outside.1, JsMap.get?_eq_none_iff.mpr outside.2]
          rfl

theorem get?_transaction_of_not_covers {want : Want κ} {key : κ}
    (asked : want.full = false → ∀ key, key ∈ want.keys ↔ key ∈ wanted.keys)
    (outside : ¬want.Covers key)
    : (applyOps view ((compared want.full wanted view).filterMap (opOf wanted view))).get? key
      = view.get? key := by
  obtain ⟨part, absent⟩ := not_or.mp outside
  have part := Bool.eq_false_of_not_eq_true part
  rw [get?_applyOps fun other => Or.inl rfl, if_neg]
  simpa [compared, part] using fun member => absent ((asked part key).mpr member)

end

/-- Where the function that `#kick` starts stands. A pass knows when it began. -/
inductive Loop (κ ε σ : Type) where
  | idle
  | passing (want : Want κ) (began : Nat) (stage : Stage κ ε σ)
  /-- The pass is over and the loop has not gone on. -/
  | passed
  | failed (full refused : Bool)
  /-- The loop is over and the callback that clears `#running` has not run. -/
  | ended

/-- The private fields of a `ShadowStateBackend` that mirroring uses. -/
structure Backend (κ ε σ : Type) where
  pending : List κ
  full : Bool
  running : Bool
  disabled : Bool
  loop : Loop κ ε σ

namespace Backend

def new : Backend κ ε σ where
  pending := []
  full := true
  running := false
  disabled := false
  loop := .idle

def look (clock : Nat) (backend : Backend κ ε σ) : Backend κ ε σ :=
  if !backend.disabled && (backend.full || !backend.pending.isEmpty) then
    { backend with
      full := false
      pending := []
      loop := .passing ⟨backend.full, backend.pending⟩ clock .stamping }
  else { backend with loop := .ended }

def kick (clock : Nat) (backend : Backend κ ε σ) : Backend κ ε σ :=
  if backend.running || backend.disabled then backend
  else look clock { backend with running := true }

def add [DecidableEq κ] (pending keys : List κ) : List κ :=
  keys.foldl (fun pending key => if key ∈ pending then pending else pending ++ [key]) pending

def enqueue [DecidableEq κ] (clock : Nat) (keys : List κ) (backend : Backend κ ε σ)
    : Backend κ ε σ :=
  if backend.disabled || keys.isEmpty then backend
  else kick clock { backend with pending := add backend.pending keys }

/-- The request of `repair`, and of `verify` before the first full pass. -/
def repair (clock : Nat) (backend : Backend κ ε σ) : Backend κ ε σ :=
  kick clock { backend with full := true }

def resume (clock : Nat) (backend : Backend κ ε σ) : Option (Backend κ ε σ) :=
  match backend.loop with
  | .passed => some (look clock backend)
  | .failed full refused =>
      some { backend with
        disabled := backend.disabled || refused
        full := backend.full || !refused && full
        loop := .ended }
  | _ => none

def clear (backend : Backend κ ε σ) : Option (Backend κ ε σ) :=
  match backend.loop with
  | .ended => some { backend with running := false, loop := .idle }
  | _ => none

end Backend

/-- A mirror transaction that committed: whose pass, when that began, what it covered, the instant
of the file it was prepared at, and the shadow after it.
-/
structure Mirror (ι κ ε : Type) where
  backend : ι
  began : Nat
  want : Want κ
  instant : Nat
  after : JsMap κ ε

/-- A request of a backend: the keys of an `#enqueue`, or a full repair. -/
structure Request (ι κ : Type) where
  backend : ι
  made : Nat
  want : Want κ

/-- A failed pass: whose, when, and whether its error disables the shadow for good. -/
structure Failure (ι : Type) where
  backend : ι
  time : Nat
  refused : Bool

/-- The file at each instant up to `now`, the shadow and the backend in a transaction on it, the
backends, and what has happened: mirrors, requests and failed passes. `clock` counts the steps.
-/
structure World (ι κ ε σ : Type) where
  file : Nat → JsMap κ ε
  now : Nat
  shadow : JsMap κ ε
  holder : Option ι
  backends : ι → Backend κ ε σ
  clock : Nat
  mirrors : List (Mirror ι κ ε)
  requests : List (Request ι κ)
  failures : List (Failure ι)

def World.start (file shadow : JsMap κ ε) : World ι κ ε σ where
  file := fun _ => file
  now := 0
  shadow
  holder := none
  backends := fun _ => .new
  clock := 0
  mirrors := []
  requests := []
  failures := []

inductive Event (ι κ ε : Type) where
  /-- A commit of the file by any process. -/
  | write (file : JsMap κ ε)
  | enqueue (backend : ι) (keys : List κ)
  | repair (backend : ι)
  | stamp (backend : ι)
  | read (backend : ι)
  | begin (backend : ι)
  | prepare (backend : ι)
  | commit (backend : ι)
  /-- The pass throws; `refused` where the error disables the shadow. -/
  | fail (backend : ι) (refused : Bool)
  | resume (backend : ι)
  | clear (backend : ι)

section

variable [DecidableEq ι] [DecidableEq κ] [DecidableEq ε] [DecidableEq σ] (stampOf : Nat → σ)

namespace World

def put (world : World ι κ ε σ) (who : ι) (backend : Backend κ ε σ) : World ι κ ε σ :=
  { world with backends := Function.update world.backends who backend }

def move (world : World ι κ ε σ) (who : ι) (loop : Loop κ ε σ) : World ι κ ε σ :=
  world.put who { world.backends who with loop }

def failPass (world : World ι κ ε σ) (who : ι) (want : Want κ) (refused : Bool)
    : World ι κ ε σ :=
  { world.move who (.failed want.full refused) with
    holder := if world.holder = some who then none else world.holder
    failures := world.failures ++ [⟨who, world.clock, refused⟩] }

/-- A new request is one that `#enqueue` or `#kick` sees. -/
def request (world : World ι κ ε σ) (who : ι) (want : Want κ) : World ι κ ε σ :=
  { world with requests := world.requests ++ [⟨who, world.clock, want⟩] }

end World

def stepPass (world : World ι κ ε σ) (who : ι) (want : Want κ) (began : Nat)
    : Stage κ ε σ → Event ι κ ε → Option (World ι κ ε σ)
  | .stamping, .stamp _ =>
      some (world.move who (.passing want began
        (.reading (stampOf world.now) want.keys .empty)))
  | .reading stamp rest wanted, .read _ =>
      if want.full then
        some (world.move who (.passing want began (.opening stamp (listed (world.file world.now)) 0)))
      else
        match rest with
        | key :: rest =>
            some (world.move who (.passing want began
              (.reading stamp rest (wanted.set key ((world.file world.now).get? key)))))
        | [] => some (world.move who (.passing want began (.opening stamp wanted 0)))
  | .opening stamp wanted attempt, .begin _ =>
      if world.holder = none then
        some { world.move who (.passing want began (.holding stamp wanted attempt)) with
          holder := some who }
      else none
  | .holding stamp wanted attempt, .prepare _ =>
      if stampOf world.now = stamp then
        some (world.move who (.passing want began (.prepared
          ((compared want.full wanted world.shadow).filterMap (opOf wanted world.shadow))
          world.now)))
      -- The database's own `writeBatch` tries again with what this pass has read.
      else if attempt < 3 then
        some { world.move who (.passing want began (.opening stamp wanted (attempt + 1))) with
          holder := none }
      else some (world.failPass who want false)
  | .prepared ops instant, .commit _ =>
      let shadow := applyOps world.shadow ops
      some { world.move who .passed with
        shadow
        holder := none
        mirrors := world.mirrors ++ [⟨who, began, want, instant, shadow⟩] }
  | _, _ => none

def passStep (world : World ι κ ε σ) (event : Event ι κ ε) (who : ι) : Option (World ι κ ε σ) :=
  match (world.backends who).loop with
  | .passing want began stage => stepPass stampOf world who want began stage event
  | _ => none

def stepAt (world : World ι κ ε σ) (event : Event ι κ ε) : Option (World ι κ ε σ) :=
  match event with
  | .write file =>
      some { world with
        file := Function.update world.file (world.now + 1) file
        now := world.now + 1 }
  | .enqueue who keys =>
      let next := world.put who ((world.backends who).enqueue world.clock keys)
      some (if (world.backends who).disabled || keys.isEmpty then next
        else next.request who ⟨false, keys⟩)
  | .repair who =>
      some ((world.put who ((world.backends who).repair world.clock)).request who ⟨true, []⟩)
  | .stamp who => passStep stampOf world event who
  | .read who => passStep stampOf world event who
  | .begin who => passStep stampOf world event who
  | .prepare who => passStep stampOf world event who
  | .commit who => passStep stampOf world event who
  | .fail who refused =>
      match (world.backends who).loop with
      | .passing want _ _ => some (world.failPass who want refused)
      | _ => none
  | .resume who => ((world.backends who).resume world.clock).map (world.put who)
  | .clear who => ((world.backends who).clear).map (world.put who)

variable {stampOf} in
theorem passing_of_passStep {world next : World ι κ ε σ} {event : Event ι κ ε} {who : ι}
    (taken : passStep stampOf world event who = some next)
    : ∃ want began stage, (world.backends who).loop = .passing want began stage
      ∧ stepPass stampOf world who want began stage event = some next := by
  simp only [passStep] at taken
  split at taken
  · next want began stage passing => exact ⟨want, began, stage, passing, taken⟩
  · cases taken

def step (world : World ι κ ε σ) (event : Event ι κ ε) : Option (World ι κ ε σ) :=
  (stepAt stampOf world event).map fun next => { next with clock := world.clock + 1 }

inductive Run (file shadow : JsMap κ ε)
    (allowed : World ι κ ε σ → Event ι κ ε → Prop) : World ι κ ε σ → Prop where
  | start : Run file shadow allowed (.start file shadow)
  | step {world next event} (before : Run file shadow allowed world)
    (meets : allowed world event) (taken : Shadow.step stampOf world event = some next)
    : Run file shadow allowed next

end

/-- Mirrors commit in the order of their instants, and each leaves every key it covered as the file
had it at its instant. At any time the row of a key is what the last mirror to cover it has left.
-/
structure Forward (initial : JsMap κ ε) [DecidableEq κ] (world : World ι κ ε σ) : Prop where
  ordered : world.mirrors.Pairwise fun earlier later => earlier.instant ≤ later.instant
  past : ∀ mirror ∈ world.mirrors, mirror.instant ≤ world.now
  mirrored : ∀ mirror ∈ world.mirrors, ∀ key, mirror.want.Covers key →
    mirror.after.get? key = (world.file mirror.instant).get? key
  rows : ∀ key, (∃ mirror ∈ world.mirrors, mirror.want.Covers key
      ∧ world.shadow.get? key = (world.file mirror.instant).get? key
      ∧ ∀ other ∈ world.mirrors, other.want.Covers key → other.instant ≤ mirror.instant)
    ∨ (∀ mirror ∈ world.mirrors, ¬mirror.want.Covers key)
      ∧ world.shadow.get? key = initial.get? key

/-- A mirror that began after the request covered it, or a pass of the backend failed after it, or
one has disabled the shadow.
-/
def Served (world : World ι κ ε σ) (request : Request ι κ) : Prop :=
  (∃ mirror ∈ world.mirrors, mirror.backend = request.backend ∧ request.made ≤ mirror.began
    ∧ ∀ key, request.want.Covers key → mirror.want.Covers key)
  ∨ ∃ failure ∈ world.failures, failure.backend = request.backend
    ∧ (request.made ≤ failure.time ∨ failure.refused = true)

/-- `#running` is set and the loop takes no more: after its last look, or after a failed pass that
does not disable the shadow.
-/
def Backend.Closing (backend : Backend κ ε σ) : Prop :=
  backend.disabled = false
  ∧ match backend.loop with
    | .ended => True
    | .failed _ refused => refused = false
    | _ => False

/-- No request reaches a backend that is closing. -/
def LoopOpen (world : World ι κ ε σ) : Event ι κ ε → Prop
  | .enqueue who keys => keys ≠ [] → ¬(world.backends who).Closing
  | .repair who => ¬(world.backends who).Closing
  | _ => True

end PiFabric.State.Shadow
