import PiFabric.Sessions.Branch
import PiFabric.Sessions.Tree

/-! Runs of a cursor over sessions that grow, navigate and switch: the folded reads are the branch.
-/

namespace PiFabric.Sessions

open JsString Ancestry Outcome

/-- A cursor that is set on a session remembers the leaf of the branch that was folded. -/
def Follows (sessions : JsString → Session) (cursor : SessionEntryCursor) (folded : List Json)
    : Prop :=
  cursor.initialized = true → ∃ name, cursor.sessionId = some name
    ∧ BranchOf (sessions name).entries cursor.leafId folded

/-- What a reader holds after a read: a reset replaces it, other entries are added to it. -/
def fold (folded : List Json) (read : SessionEntryRead) : List Json :=
  if read.reset then read.entries else folded ++ read.entries

theorem ids_of_path {entries : List Json} {id : JsString} {line : List Json}
    (path : PathTo entries id line)
    : (line.filterMap fun entry => sessionEntryId (some entry)).getLast? = some id := by
  obtain ⟨before, entry, rfl, -, named⟩ := path.ends
  have keyed : sessionEntryId (some entry) = some id := named
  rw [List.filterMap_append, List.filterMap_cons, keyed, List.filterMap_nil]
  exact List.getLast?_concat

theorem setPath_leafId {entries : List Json} {leaf : Option JsString} {branch : List Json}
    (known : BranchOf entries leaf branch) (cursor : SessionEntryCursor)
    : (cursor.setPath branch).leafId = leaf := by
  cases leaf with
  | none =>
    obtain rfl : branch = [] := known
    rfl
  | some id => exact ids_of_path known

theorem pushPath_frame (entries : List Json) (cursor : SessionEntryCursor)
    : (cursor.pushPath entries).initialized = cursor.initialized
      ∧ (cursor.pushPath entries).sessionId = cursor.sessionId
      ∧ (cursor.pushPath entries).maxEntries = cursor.maxEntries
      ∧ (cursor.pushPath entries).failure = cursor.failure := by
  induction entries generalizing cursor with
  | nil => exact ⟨rfl, rfl, rfl, rfl⟩
  | cons entry rest ih =>
    unfold SessionEntryCursor.pushPath
    split
    · exact ih cursor
    · split
      · exact ih _
      · exact ih _

/-- Appending to the path changes nothing but the path and its leaf. -/
theorem appendPath_frame (entries : List Json) (cursor : SessionEntryCursor)
    : (cursor.appendPath entries).initialized = cursor.initialized
      ∧ (cursor.appendPath entries).sessionId = cursor.sessionId
      ∧ (cursor.appendPath entries).maxEntries = cursor.maxEntries
      ∧ (cursor.appendPath entries).failure = cursor.failure := by
  obtain pushed := pushPath_frame entries cursor
  unfold SessionEntryCursor.appendPath SessionEntryCursor.trimPath
  dsimp only
  split
  · exact pushed
  · split
    · exact pushed
    · exact pushed

def ThrownCursor (cursor : SessionEntryCursor) : Prop :=
  ∀ failure, cursor.failure = some failure → failure.error ≠ .unfinished

/-- How a read of a session may end: the folded reads are the branch and the cursor remembers its
leaf, or it threw, and what the cursor still remembers it remembered before.
-/
def Ends (session : Session) (name : JsString) (fate : Fate) (cursor : SessionEntryCursor)
    (folded branch : List Json)
    (outcome : SessionEntryCursor × Except Failure SessionEntryRead) : Prop :=
  outcome.1.maxEntries = none ∧ ThrownCursor outcome.1
  ∧ match outcome.2 with
    | .ok read =>
      fold folded read = branch ∧ outcome.1.sessionId = some name
        ∧ outcome.1.leafId = session.leaf ∧ read.leafId = session.leaf
    | .error error =>
      error ≠ .unfinished
        ∧ (fate.full ≠ .answers ∨ ∃ failure, cursor.failure = some failure)
        ∧ (outcome.1.initialized = true →
          cursor.initialized = true
            ∧ outcome.1.sessionId = cursor.sessionId ∧ outcome.1.leafId = cursor.leafId)

section

variable {session : Session} {name : JsString} {fate : Fate} {branch : List Json}

variable {fuel : Nat}

theorem rederive_ends (known : BranchOf session.entries session.leaf branch)
    (enough : session.entries.length ≤ fuel) (calls : Nat) (leafId : Option JsString)
    (cursor : SessionEntryCursor) (folded : List Json)
    : Ends session name fate cursor folded branch
        (SessionEntryCursor.rederive (session.manager name fate) (some name) leafId none fuel
          calls) := by
  have walked := walk_gives known name fate enough calls
  unfold SessionEntryCursor.rederive
  cases given : walkActiveSessionBranch (session.manager name fate) none fuel calls with
  | ok entries =>
    rw [given] at walked
    obtain rfl : entries = branch := walked
    have leaf := setPath_leafId known { SessionEntryCursor.new with sessionId := some name }
    exact ⟨rfl, fun _ kept => absurd kept (Option.some_ne_none _).symm, rfl, rfl, leaf, leaf⟩
  | error error =>
    rw [given] at walked
    obtain ⟨silent, finished⟩ : fate.full ≠ .answers ∧ error ≠ .unfinished := walked
    have unset : ∀ {p : Prop}, false = true → p := fun set => absurd set Bool.false_ne_true
    cases error with
    | refusal message =>
      refine ⟨rfl, fun failure kept => ?_, finished, .inl silent, unset⟩
      obtain rfl := Option.some.inj kept
      exact finished
    | thrown value =>
      exact ⟨rfl, fun _ kept => absurd kept (Option.some_ne_none _).symm, finished, .inl silent,
        unset⟩
    | unfinished => exact absurd rfl finished

variable {cursor : SessionEntryCursor}

theorem held_of_heldFailure {sessionId leafId : Option JsString} {error : Failure}
    (held : cursor.heldFailure sessionId leafId none = some error)
    : ∃ failure, cursor.failure = some failure ∧ failure.error = error := by
  obtain ⟨failure, kept, given⟩ := Option.bind_eq_some_iff.1 held
  split at given
  · exact ⟨failure, kept, Option.some.inj given⟩
  · cases given

/-- A kept failure ends a read without a trace. -/
theorem held_ends (unlimited : cursor.maxEntries = none) (thrown : ThrownCursor cursor)
    {leafId : Option JsString} {error : Failure}
    (held : cursor.heldFailure (some name) leafId none = some error) (folded : List Json)
    : Ends session name fate cursor folded branch (cursor, .error error) := by
  obtain ⟨failure, kept, rfl⟩ := held_of_heldFailure held
  exact ⟨unlimited, thrown, thrown failure kept, .inr ⟨failure, kept⟩, fun set => ⟨set, rfl, rfl⟩⟩

theorem reset_ends (known : BranchOf session.entries session.leaf branch)
    (enough : session.entries.length ≤ fuel) (calls : Nat) (unlimited : cursor.maxEntries = none)
    (thrown : ThrownCursor cursor) (folded : List Json)
    : Ends session name fate cursor folded branch
        (cursor.reset (session.manager name fate) cursor.maxEntries fuel calls) := by
  have named : sessionIdOf (session.manager name fate) = .ok (some name) := rfl
  unfold SessionEntryCursor.reset
  rw [named, unlimited]
  dsimp only
  cases held : cursor.heldFailure (some name) (currentLeafId (session.manager name fate)) none with
  | some error => exact held_ends unlimited thrown held folded
  | none => exact rederive_ends known enough calls _ cursor folded

/-- The climb from a leaf meets the remembered one with the entries between them, or gives up. -/
theorem climb_added {lookup : Nat → JsString → Except Failure (Option Json)}
    (offered : (session.manager name fate).getEntry = some lookup) {remembered : Option JsString}
    {old : List Json} (was : BranchOf session.entries remembered old) (recent : List JsString)
    {id : JsString} {line : List Json} (path : PathTo session.entries id line) {before : List Json}
    {current : Json} (ends : line = before ++ [current]) (enough : line.length < fuel) (calls : Nat)
    (visited : List JsString) {reverse : List Json} (whole : line ++ reverse = branch)
    : match SessionEntryCursor.climb lookup remembered recent fuel calls visited reverse
          (some current) with
      | .added entries => old ++ entries = branch
      | .reset _ => True
      | .unfinished => False := by
  induction path generalizing before current fuel calls visited reverse with
  | @root node own mem named top =>
    obtain ⟨rfl, rfl⟩ : before = [] ∧ current = node := by
      rw [← List.nil_append [node]] at ends
      exact (List.append_inj' ends rfl).imp Eq.symm fun same => (List.cons.inj same).1.symm
    obtain ⟨fuel, rfl⟩ := Nat.exists_eq_add_of_lt enough
    have keyed : sessionEntryId (some current) = some own := named
    have top' : sessionParentId (some current) = some none := top
    simp only [SessionEntryCursor.climb, truthy_of_id named, keyed, top', Bool.true_eq_false,
      if_false]
    by_cases seen : own ∈ visited
    · rw [if_pos seen]
      trivial
    rw [if_neg seen]
    by_cases met : remembered = some own
    · subst met
      rw [if_pos rfl, Path.unique session.rooted.distinct was (.root mem named top)]
      exact whole
    · rw [if_neg met, ite_self]
      trivial
  | @step node own above line mem named below path ih =>
    obtain ⟨-, rfl⟩ : before = line ∧ current = node :=
      (List.append_inj' ends rfl).imp Eq.symm fun same => (List.cons.inj same).1.symm
    have whole' : line ++ current :: reverse = branch := by
      rw [← whole, List.append_assoc _ [current] reverse, List.singleton_append]
    have here := Path.step mem named below path
    obtain ⟨before', node', rfl, mem', named'⟩ := path.ends
    rw [List.length_append, List.length_singleton] at enough
    obtain ⟨fuel, rfl⟩ := Nat.exists_eq_add_of_lt (Nat.zero_lt_of_lt enough)
    rw [Nat.zero_add] at enough
    have keyed : sessionEntryId (some current) = some own := named
    have below' : sessionParentId (some current) = some (some above) := below
    have found : session.find above = some node' := Session.find_eq_some_iff.2 ⟨mem', named'⟩
    obtain rfl := Option.some.inj offered
    simp only [Nat.zero_add, SessionEntryCursor.climb, truthy_of_id named, keyed, below',
      Bool.true_eq_false, if_false]
    by_cases seen : own ∈ visited
    · rw [if_pos seen]
      trivial
    rw [if_neg seen]
    by_cases met : remembered = some own
    · subst met
      rw [if_pos rfl, Path.unique session.rooted.distinct was here]
      exact whole
    rw [if_neg met]
    by_cases recently : own ∈ recent
    · rw [if_pos recently]
      trivial
    rw [if_neg recently]
    by_cases met' : remembered = some above
    · subst met'
      rw [if_pos rfl, Path.unique session.rooted.distinct was path]
      exact whole'
    rw [if_neg met']
    cases failing : fate.lookups calls with
    | none =>
      simp only [found]
      exact ih rfl (by omega) (calls + 1) (own :: visited) whole'
    | some fault =>
      cases fault with
      | throws value => trivial
      | missing =>
        cases fuel with
        | zero => exact absurd enough (by simp)
        | succ fuel => trivial

/-- A leaf that is not the remembered one is climbed from, or the branch is read again. -/
theorem advance_ends (known : BranchOf session.entries session.leaf branch)
    (enough : session.entries.length < fuel) {folded : List Json} (thrown : ThrownCursor cursor)
    (unlimited : cursor.maxEntries = none) (here : cursor.sessionId = some name)
    (was : BranchOf session.entries cursor.leafId folded)
    {lookup : Nat → JsString → Except Failure (Option Json)}
    (offered : (session.manager name fate).getEntry = some lookup)
    (leafed : sessionEntryId (session.leaf.bind session.find) = session.leaf)
    : Ends session name fate cursor folded branch
        (cursor.advance (session.manager name fate) lookup (session.leaf.bind session.find)
          fuel) := by
  unfold SessionEntryCursor.advance
  dsimp only
  rw [leafed]
  by_cases stays : session.leaf = cursor.leafId
  · rw [if_pos stays]
    refine ⟨unlimited, thrown, ?_, here, stays.symm, stays.symm⟩
    rw [stays] at known
    cases leaf : cursor.leafId with
    | none =>
      rw [leaf] at known was
      obtain rfl : branch = [] := known
      obtain rfl : folded = [] := was
      rfl
    | some id =>
      rw [leaf] at known was
      exact (List.append_nil _).trans (Path.unique session.rooted.distinct was known)
  rw [if_neg stays]
  cases leaf : session.leaf with
  | none =>
    obtain ⟨fuel, rfl⟩ := Nat.exists_eq_add_of_lt enough
    exact reset_ends known (by omega) 0 unlimited thrown folded
  | some id =>
    rw [leaf] at known
    have path : PathTo session.entries id branch := known
    obtain ⟨before, entry, ends, mem, named⟩ := path.ends
    have found : session.find id = some entry := Session.find_eq_some_iff.2 ⟨mem, named⟩
    have climbed := climb_added offered was cursor.known path ends
      ((path.length_le session.rooted.distinct).trans_lt enough) 0 [] (List.append_nil _)
    rw [Option.bind_some, found]
    cases outcome : SessionEntryCursor.climb lookup cursor.leafId cursor.known fuel 0 [] []
        (some entry) with
    | added entries =>
      rw [outcome] at climbed
      obtain ⟨-, same, limit, failure⟩ := appendPath_frame entries cursor
      refine ⟨limit.trans unlimited, fun kept held => thrown kept (failure.symm.trans held),
        climbed, same.trans here, leaf.symm, leaf.symm⟩
    | reset calls =>
      rw [← leaf] at known
      exact reset_ends known (Nat.le_of_lt enough) calls unlimited thrown folded
    | unfinished =>
      rw [outcome] at climbed
      exact climbed.elim

theorem sessionEntryId_leaf (session : Session)
    : sessionEntryId (session.leaf.bind session.find) = session.leaf := by
  cases leaf : session.leaf with
  | none => rfl
  | some id =>
    obtain ⟨entry, mem, named⟩ := session.placed id leaf
    rw [Option.bind_some, Session.find_eq_some_iff.2 ⟨mem, named⟩]
    exact named

theorem read_ends (known : BranchOf session.entries session.leaf branch)
    (enough : session.entries.length < fuel) {folded : List Json}
    (unlimited : cursor.maxEntries = none) (thrown : ThrownCursor cursor)
    (was : cursor.initialized = true → cursor.sessionId = some name →
      BranchOf session.entries cursor.leafId folded)
    : Ends session name fate cursor folded branch
        (cursor.read (session.manager name fate) fuel) := by
  have named : sessionIdOf (session.manager name fate) = .ok (some name) := rfl
  unfold SessionEntryCursor.read
  rw [named]
  dsimp only
  cases held : cursor.heldFailure (some name) (currentLeafId (session.manager name fate))
      cursor.maxEntries with
  | some error =>
    rw [unlimited] at held
    exact held_ends unlimited thrown held folded
  | none =>
    dsimp only
    have cleared : ThrownCursor { cursor with failure := none } :=
      fun _ kept => absurd kept (Option.some_ne_none _).symm
    have clear {outcome : SessionEntryCursor × Except Failure SessionEntryRead}
        (ends : Ends session name fate { cursor with failure := none } folded branch outcome)
        : Ends session name fate cursor folded branch outcome := by
      obtain ⟨limit, kept, rest⟩ := ends
      refine ⟨limit, kept, ?_⟩
      cases given : outcome.2 with
      | ok read =>
        rw [given] at rest
        exact rest
      | error error =>
        rw [given] at rest
        obtain ⟨finished, silent | ⟨failure, held⟩, stays⟩ := rest
        · exact ⟨finished, .inl silent, stays⟩
        · exact absurd held (Option.some_ne_none _).symm
    have again (other : SessionEntryCursor) (limit : other.maxEntries = none)
        (kept : ThrownCursor other)
        : Ends session name fate other folded branch
            (other.reset (session.manager name fate) other.maxEntries fuel 0) :=
      reset_ends known (Nat.le_of_lt enough) 0 limit kept folded
    by_cases stale : cursor.initialized = false ∨ cursor.sessionId ≠ some name
    · rw [if_pos stale]
      exact clear (again { cursor with failure := none } unlimited cleared)
    rw [if_neg stale]
    obtain ⟨set, here⟩ := not_or.1 stale
    have here : cursor.sessionId = some name := not_not.1 here
    have leafed := sessionEntryId_leaf session
    have offered : (session.manager name fate).getEntry = some _ := rfl
    have moved := clear (advance_ends known enough cleared unlimited here
      (was (by simpa using set) here) offered leafed)
    cases declared : fate.declares with
    | true =>
      have leafId : (session.manager name fate).getLeafId = some (.ok session.leaf) := by
        simp only [Session.manager, declared, if_true]
      have leafEntry : (session.manager name fate).getLeafEntry
          = some (.ok (session.leaf.bind session.find)) := rfl
      rw [leafId, leafEntry, offered]
      dsimp only
      rw [if_neg (not_not.2 leafed.symm)]
      exact moved
    | false =>
      have leafId : (session.manager name fate).getLeafId = none := by
        simp only [Session.manager, declared, Bool.false_eq_true, if_false]
      rw [leafId]
      exact moved

end

structure State where
  sessions : JsString → Session
  current : JsString
  cursor : SessionEntryCursor
  folded : List Json

namespace State

def session (state : State) : Session :=
  state.sessions state.current

def change (state : State) (session : Session) : State :=
  { state with sessions := Function.update state.sessions state.current session }

def read (state : State) (fate : Fate) (fuel : Nat) : State :=
  let outcome := state.cursor.read (state.session.manager state.current fate) fuel
  { state with
    cursor := outcome.1
    folded :=
      match outcome.2 with
      | .ok read => fold state.folded read
      | .error _ => state.folded }

/-- What holds between the steps of a run. -/
structure Sound (state : State) : Prop where
  unlimited : state.cursor.maxEntries = none
  thrown : ThrownCursor state.cursor
  follows : Follows state.sessions state.cursor state.folded

end State

/-- A step of a run. The climbs of a read take at most `fuel` lookups, which is enough of them. -/
inductive Step : State → State → Prop
  | append (state : State) (entry : Json) (id : JsString) (named : idOf entry = some id)
      (fresh : ∀ other ∈ state.session.entries, idOf other ≠ some id)
      (under : parentOf entry = some none
        ∨ ∃ other ∈ state.session.entries, ∃ above,
            idOf other = some above ∧ parentOf entry = some (some above))
      : Step state (state.change (state.session.append entry id named fresh under))
  | navigate (state : State) (leaf : Option JsString)
      (placed : ∀ id, leaf = some id → ∃ entry ∈ state.session.entries, idOf entry = some id)
      : Step state (state.change (state.session.navigate leaf placed))
  | switch (state : State) (name : JsString) : Step state { state with current := name }
  | read (state : State) (fate : Fate) (fuel : Nat)
      (enough : state.session.entries.length < fuel)
      : Step state (state.read fate fuel)

/-- The states of the runs of a new cursor. -/
inductive Reached : State → Prop
  | start (sessions : JsString → Session) (current : JsString)
      : Reached ⟨sessions, current, .new, []⟩
  | next {before after : State} (reached : Reached before) (step : Step before after)
      : Reached after

variable {state : State}

theorem State.Sound.change (sound : state.Sound) {session : Session}
    (grown : state.session.entries ⊆ session.entries)
    : (state.change session).Sound := by
  refine ⟨sound.unlimited, sound.thrown, fun set => ?_⟩
  obtain ⟨name, here, branch⟩ := sound.follows set
  refine ⟨name, here, ?_⟩
  unfold State.change
  dsimp only
  by_cases same : name = state.current
  · subst same
    rw [Function.update_self]
    unfold BranchOf at branch ⊢
    cases leaf : state.cursor.leafId with
    | none =>
      rw [leaf] at branch
      exact branch
    | some id =>
      rw [leaf] at branch
      exact Path.mono branch grown
  · rw [Function.update_of_ne same]
    exact branch

theorem State.Sound.ends (sound : state.Sound) (fate : Fate) {fuel : Nat}
    (enough : state.session.entries.length < fuel) {branch : List Json}
    (known : BranchOf state.session.entries state.session.leaf branch)
    : Ends state.session state.current fate state.cursor state.folded branch
        (state.cursor.read (state.session.manager state.current fate) fuel) := by
  refine read_ends known enough sound.unlimited sound.thrown fun set here => ?_
  obtain ⟨name, there, branch⟩ := sound.follows set
  obtain rfl : name = state.current := Option.some.inj (there.symm.trans here)
  exact branch

theorem State.Sound.read (sound : state.Sound) (fate : Fate) {fuel : Nat}
    (enough : state.session.entries.length < fuel)
    : (state.read fate fuel).Sound := by
  obtain ⟨branch, known⟩ := state.session.exists_branch
  obtain ⟨limit, thrown, rest⟩ := sound.ends fate enough known
  refine ⟨limit, thrown, fun set => ?_⟩
  unfold State.read at set ⊢
  dsimp only at set ⊢
  cases outcome : (state.cursor.read (state.session.manager state.current fate) fuel).2 with
  | ok read =>
    rw [outcome] at rest
    obtain ⟨folded, here, leaf, -⟩ := rest
    refine ⟨state.current, here, ?_⟩
    dsimp only
    rw [folded, leaf]
    exact known
  | error error =>
    rw [outcome] at rest
    obtain ⟨was, same, leaf⟩ := rest.2.2 set
    obtain ⟨name, here, branch⟩ := sound.follows was
    refine ⟨name, same.trans here, ?_⟩
    rw [leaf]
    exact branch

/-- Every step keeps the cursor on the branch that was folded. -/
theorem Step.sound {before after : State} (step : Step before after) (sound : before.Sound)
    : after.Sound := by
  cases step with
  | append entry id named fresh under => exact sound.change (List.subset_append_left _ _)
  | navigate leaf placed => exact sound.change fun _ mem => mem
  | switch name => exact ⟨sound.unlimited, sound.thrown, sound.follows⟩
  | read fate fuel enough => exact sound.read fate enough

theorem Reached.sound (reached : Reached state) : state.Sound := by
  induction reached with
  | start sessions current =>
    exact ⟨rfl, fun _ kept => absurd kept (Option.some_ne_none _).symm,
      fun set => absurd set Bool.false_ne_true⟩
  | next reached step ih => exact step.sound ih

/-- In every run the folded reads are the branch of the current leaf after every read that does not
throw, and a read throws only for want of a full read or for a failure kept from another one. A full
read gives that branch too, unless there are entries and no leaf: then the branch is empty.
-/
theorem cursor_folds_to_branch {state : State} (reached : Reached state) (fate : Fate) {fuel : Nat}
    (enough : state.session.entries.length < fuel)
    : ∃ branch, BranchOf state.session.entries state.session.leaf branch
        ∧ (∀ read,
            (state.cursor.read (state.session.manager state.current fate) fuel).2 = .ok read →
            fold state.folded read = branch ∧ read.leafId = state.session.leaf)
        ∧ (fate.full = .answers → state.cursor.failure = none → ∃ read,
            (state.cursor.read (state.session.manager state.current fate) fuel).2 = .ok read)
        ∧ ∀ whole : Fate, whole.full = .answers →
            state.session.leaf.isSome = true ∨ state.session.entries = [] →
            fullActiveBranchRead (state.session.manager state.current whole)
              (state.session.leaf.bind state.session.find) none = .ok branch := by
  obtain ⟨branch, known⟩ := state.session.exists_branch
  obtain ⟨-, -, rest⟩ := reached.sound.ends fate enough known
  refine ⟨branch, known, fun read given => ?_, fun answers clear => ?_,
    fun whole answers place => ?_⟩
  · rw [given] at rest
    exact ⟨rest.1, rest.2.2.2⟩
  · cases outcome : (state.cursor.read (state.session.manager state.current fate) fuel).2 with
    | ok read => exact ⟨read, rfl⟩
    | error error =>
      rw [outcome] at rest
      rcases rest.2.1 with silent | ⟨failure, kept⟩
      · exact absurd answers silent
      · exact absurd (clear.symm.trans kept) (Option.some_ne_none _).symm
  · cases leaf : state.session.leaf with
    | some id =>
      rw [← leaf]
      rw [leaf] at known
      exact fullActiveBranchRead_eq_ok leaf known state.current answers
    | none =>
      rw [leaf] at known place
      obtain rfl : branch = [] := known
      rcases place with named | bare
      · exact absurd named Bool.false_ne_true
      · rw [← leaf]
        exact fullActiveBranchRead_empty leaf bare state.current answers

def entry (id : String) (parent : Json) : Json :=
  .object [(lit "id", .string (lit id)), (lit "parentId", parent)]

def single : Session :=
  Session.empty.append (entry "a" .null) (lit "a") (by decide)
    (fun _ mem => absurd mem List.not_mem_nil) (.inl (by decide))

def whole : Fate where
  declares := true
  full := .answers
  lookups := fun _ => none

def behind : State :=
  let state := State.read ⟨fun _ => single, lit "s", .new, []⟩ whole 2
  state.change (single.append (entry "b" (.string (lit "a"))) (lit "b") (by decide) (by decide)
    (.inr ⟨entry "a" .null, List.mem_cons_self, lit "a", by decide, by decide⟩))

/-- The read after it adds the second entry to the first one. -/
theorem cursor_folds_to_two_entries
    : (behind.read whole 3).folded = [entry "a" .null, entry "b" (.string (lit "a"))] := by
  have reached : Reached behind :=
    .next (.next (.start (fun _ => single) (lit "s")) (.read _ whole 2 (by decide)))
      (.append _ _ _ _ _ _)
  obtain ⟨branch, known, folds, succeeds, -⟩ :=
    cursor_folds_to_branch reached whole (show behind.session.entries.length < 3 by decide)
  have above : PathTo behind.session.entries (lit "a") [entry "a" .null] :=
    .root List.mem_cons_self (by decide) (by decide)
  have path : PathTo behind.session.entries (lit "b")
      ([entry "a" .null] ++ [entry "b" (.string (lit "a"))]) :=
    .step (List.mem_cons_of_mem _ List.mem_cons_self) (by decide) (by decide) above
  obtain ⟨read, given⟩ := succeeds rfl rfl
  unfold State.read
  dsimp only
  rw [given]
  exact (folds read given).1.trans (Path.unique behind.session.rooted.distinct known path)

/-- A session with an entry and no leaf: the cursor reads the empty branch, the full read refuses.
-/
theorem leafless_read_and_refusal
    : (SessionEntryCursor.new.read
          ((single.navigate none fun _ named => absurd named.symm (Option.some_ne_none _)).manager
            (lit "s") whole) 2).2 = .ok ⟨[], true, none⟩
      ∧ fullActiveBranchRead
          ((single.navigate none fun _ named => absurd named.symm (Option.some_ne_none _)).manager
            (lit "s") whole) none none
        = .error (.refusal (lit "Full session read cannot identify the active leaf")) :=
  ⟨rfl, rfl⟩

end PiFabric.Sessions
