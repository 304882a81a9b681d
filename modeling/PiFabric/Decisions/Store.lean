import PiFabric.Decisions.Record
import PiFabric.Foundation.Cas

/-! Calls of any number of decision stores on one mesh. Every read and every write of the mesh is a
step of its own, and a call may stop at any of them.
-/

namespace PiFabric.Decisions

structure Read where
  id : JsString
  record : Record
  version : Nat

/-- What a call does with an entry once its deadline is applied: `get` returns it, `#transition`
changes it, and `#entries` collects it, for `list` or for the birth of a `raise`.
-/
inductive Goal where
  | read
  | change (change : Change)
  | scan (birth : Option Record) (left : List Read) (done : List (Read × Record))

inductive Pc where
  | idle
  /-- `#expire`, for an entry, with what it last read of it. -/
  | expire (goal : Goal) (entry current : Read)
  /-- `#expire` lost its compare-and-swap. -/
  | reread (goal : Goal) (entry : Read)
  /-- `#transition`, before its read. -/
  | transition (change : Change) (id : JsString)
  | replace (change : Change) (read : Read)
  | prune (birth : Record) (left : List Read)
  | create (birth : Record)

/-- The resolved entries in the order of their resolution, by insertion: equal ones keep theirs. -/
def resolvedEntries (entries : List (Read × Record)) : List (Read × Record) :=
  (entries.filter fun entry => entry.2.status ≠ .opened).insertionSort
    fun left right => left.2.resolvedAt ≤ right.2.resolvedAt

/-- The loop of `#prune`: what it deletes. -/
def pruned (now : Time) : Int → List (Read × Record) → List Read
  | _, [] => []
  | excess, (entry, record) :: rest =>
      if resolvedRetentionMs < now - record.resolvedAt ∨ 0 < excess then
        entry :: pruned now (excess - 1) rest
      else []

def raising (now : Time) (birth : Record) (entries : List (Read × Record)) : Pc :=
  if maxOpenDecisions ≤ (entries.filter fun entry => entry.2.status = .opened).length then .idle
  else .prune birth (pruned now (entries.length + 1 - maxStoredDecisions) (resolvedEntries entries))

/-- `#entries`, at the next of the entries it listed. -/
def scanning (now : Time) (birth : Option Record) (left : List Read) (done : List (Read × Record))
    : Pc :=
  match left, birth with
  | entry :: rest, birth => .expire (.scan birth rest done) entry entry
  | [], some birth => raising now birth done
  | [], none => .idle

/-- What follows `#expire`. -/
def Goal.resume (now : Time) (goal : Goal) (entry result : Read) : Pc :=
  match goal with
  | .read => .idle
  | .change asked => if result.record.status = .opened then .replace asked result else .idle
  | .scan birth left done => scanning now birth left (done ++ [(entry, result.record)])

structure World (ι : Type) where
  store : Cas.Store JsString Record
  calls : ι → Pc

inductive Event where
  | quiet
  | changed (change : Change) (read : Read) (next : Record)
  | pruned (read : Read)

/-- A read, which may lag: the record was of this version. -/
def Known (store : Cas.Store JsString Record) (read : Read) : Prop :=
  store.log read.id read.version = some read.record

variable {ι : Type} [DecidableEq ι]

def World.goto (w : World ι) (call : ι) (pc : Pc) : World ι :=
  { w with calls := Function.update w.calls call pc }

inductive Step : World ι → Event → World ι → Prop
  | get {w : World ι} {call : ι} {read : Read} (idle : w.calls call = .idle)
      (known : Known w.store read)
      : Step w .quiet (w.goto call (.expire .read read read))
  | begin_ {w : World ι} {call : ι} {change : Change} {id : JsString}
      (idle : w.calls call = .idle) (checked : change.check = .ok ())
      : Step w .quiet (w.goto call (.transition change id))
  | list {w : World ι} {call : ι} {entries : List Read} {now : Time}
      (idle : w.calls call = .idle) (known : ∀ read ∈ entries, Known w.store read)
      : Step w .quiet (w.goto call (scanning now none entries []))
  | raise {w : World ι} {call : ι} {entries : List Read} {now : Time} {input : RaiseInput}
      {id : JsString} {raisedBy : RaisedBy} {birth : Record} (idle : w.calls call = .idle)
      (built : buildDecisionRecord input id raisedBy now = .ok birth)
      (known : ∀ read ∈ entries, Known w.store read)
      : Step w .quiet (w.goto call (scanning now (some birth) entries []))
  /-- No deadline has passed. -/
  | current {w : World ι} {call : ι} {goal : Goal} {entry current : Read} {now : Time}
      (at_ : w.calls call = .expire goal entry current)
      (same : applyDecisionDeadline current.record now = current.record)
      : Step w .quiet (w.goto call (goal.resume now entry current))
  | expire {w : World ι} {call : ι} {goal : Goal} {entry current : Read} {now : Time}
      {store : Cas.Store JsString Record} (at_ : w.calls call = .expire goal entry current)
      (passed : applyDecisionDeadline current.record now ≠ current.record)
      (written : w.store.put current.id (applyDecisionDeadline current.record now)
        (some current.version) = some store)
      : Step w .quiet ({ w with store }.goto call (goal.resume now entry {
          id := current.id
          record := applyDecisionDeadline current.record now
          version := store.version current.id
        }))
  | expireConflict {w : World ι} {call : ι} {goal : Goal} {entry current : Read} {now : Time}
      (at_ : w.calls call = .expire goal entry current)
      (passed : applyDecisionDeadline current.record now ≠ current.record)
      (conflict : w.store.put current.id (applyDecisionDeadline current.record now)
        (some current.version) = none)
      : Step w .quiet (w.goto call (.reread goal entry))
  | reread {w : World ι} {call : ι} {goal : Goal} {entry read : Read}
      (at_ : w.calls call = .reread goal entry) (known : Known w.store read)
      (same : read.id = entry.id)
      : Step w .quiet (w.goto call (.expire goal entry read))
  | transition {w : World ι} {call : ι} {change : Change} {id : JsString} {read : Read}
      (at_ : w.calls call = .transition change id) (known : Known w.store read)
      (same : read.id = id)
      : Step w .quiet (w.goto call (.expire (.change change) read read))
  | replace {w : World ι} {call : ι} {change : Change} {read : Read} {now : Time} {next : Record}
      {store : Cas.Store JsString Record} (at_ : w.calls call = .replace change read)
      (computed : change.next read.record now = .ok next)
      (written : w.store.put read.id next (some read.version) = some store)
      : Step w (.changed change read next) ({ w with store }.goto call .idle)
  | replaceConflict {w : World ι} {call : ι} {change : Change} {read : Read} {now : Time}
      {next : Record} (at_ : w.calls call = .replace change read)
      (computed : change.next read.record now = .ok next)
      (conflict : w.store.put read.id next (some read.version) = none)
      : Step w .quiet (w.goto call (.transition change read.id))
  | prune {w : World ι} {call : ι} {birth : Record} {read : Read} {left : List Read}
      {store : Cas.Store JsString Record} (at_ : w.calls call = .prune birth (read :: left))
      (deleted : w.store.delete read.id (some read.version) = some store)
      : Step w (.pruned read) ({ w with store }.goto call (.prune birth left))
  /-- A deletion that fails is given up. -/
  | keep {w : World ι} {call : ι} {birth : Record} {read : Read} {left : List Read}
      (at_ : w.calls call = .prune birth (read :: left))
      : Step w .quiet (w.goto call (.prune birth left))
  | prunedAll {w : World ι} {call : ι} {birth : Record}
      (at_ : w.calls call = .prune birth [])
      : Step w .quiet (w.goto call (.create birth))
  | create {w : World ι} {call : ι} {birth : Record} {store : Cas.Store JsString Record}
      (at_ : w.calls call = .create birth)
      (written : w.store.put birth.id birth (some 0) = some store)
      : Step w .quiet ({ w with store }.goto call .idle)
  /-- A refusal, an error, an abort or the end of the process. -/
  | stop {w : World ι} {call : ι} : Step w .quiet (w.goto call .idle)

/-- Any number of steps. -/
abbrev Run : World ι → World ι → Prop :=
  Relation.ReflTransGen fun w w' => ∃ event, Step w event w'

def start : World ι where
  store := Cas.empty
  calls := fun _ => .idle

def Reachable (w : World ι) : Prop :=
  Run start w

end PiFabric.Decisions
