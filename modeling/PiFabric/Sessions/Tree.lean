import PiFabric.Foundation.Ancestry
import PiFabric.Foundation.Outcome
import PiFabric.Sessions.Branch

/-! A session as a tree of entries with a leaf, and what the full read and the walk make of it. -/

namespace PiFabric.Sessions

open JsString Ancestry

def idOf (entry : Json) : Option JsString :=
  sessionEntryId (some entry)

def parentOf (entry : Json) : Option (Option JsString) :=
  sessionParentId (some entry)

/-- The entries from a root down to the entry of an id. -/
abbrev PathTo (entries : List Json) : JsString → List Json → Prop :=
  Path idOf parentOf entries

/-- The branch of a leaf: its path, or nothing where there is no leaf. -/
def BranchOf (entries : List Json) : Option JsString → List Json → Prop
  | none, branch => branch = []
  | some id, branch => PathTo entries id branch

/-- Entries with ids of their own, each under a root, and a leaf that is one of them or none. -/
structure Session where
  entries : List Json
  leaf : Option JsString
  rooted : Rooted idOf parentOf entries
  placed : ∀ id, leaf = some id → ∃ entry ∈ entries, idOf entry = some id

namespace Session

def empty : Session where
  entries := []
  leaf := none
  rooted := .nil
  placed := fun _ named => (Option.some_ne_none _ named.symm).elim

def find (session : Session) (id : JsString) : Option Json :=
  session.entries.find? fun entry => idOf entry = some id

def append (session : Session) (entry : Json) (id : JsString) (named : idOf entry = some id)
    (fresh : ∀ other ∈ session.entries, idOf other ≠ some id)
    (under : parentOf entry = some none
      ∨ ∃ other ∈ session.entries, ∃ above,
          idOf other = some above ∧ parentOf entry = some (some above)) : Session where
  entries := session.entries ++ [entry]
  leaf := some id
  rooted := session.rooted.append named fresh under
  placed := fun _ same =>
    ⟨entry, List.mem_append_right _ (List.mem_singleton.2 rfl), named.trans same⟩

def navigate (session : Session) (leaf : Option JsString)
    (placed : ∀ id, leaf = some id → ∃ entry ∈ session.entries, idOf entry = some id)
    : Session where
  entries := session.entries
  leaf := leaf
  rooted := session.rooted
  placed := placed

theorem find_eq_some_iff {session : Session} {id : JsString} {entry : Json}
    : session.find id = some entry ↔ entry ∈ session.entries ∧ idOf entry = some id := by
  constructor
  · intro found
    exact ⟨List.mem_of_find?_eq_some found, by simpa using List.find?_some found⟩
  · rintro ⟨mem, named⟩
    cases found : session.find id with
    | none =>
      have missing := List.find?_eq_none.1 found entry mem
      simp [named] at missing
    | some other =>
      have inside := List.mem_of_find?_eq_some found
      have same : idOf other = some id := by simpa using List.find?_some found
      rw [eq_of_key session.rooted.distinct inside mem (same.trans named.symm)]

theorem exists_branch (session : Session)
    : ∃ branch, BranchOf session.entries session.leaf branch := by
  cases known : session.leaf with
  | none => exact ⟨[], rfl⟩
  | some id =>
    obtain ⟨entry, mem, named⟩ := session.placed id known
    obtain ⟨own, line, keyed, path⟩ := session.rooted.reached entry mem
    obtain rfl : own = id := Option.some.inj (keyed.symm.trans named)
    exact ⟨line, path⟩

end Session

inductive Fault where
  | throws (value : JsString)
  | missing

/-- How the full read goes: there is no such method, it throws, or it answers. -/
inductive FullRead where
  | absent
  | throws (value : JsString)
  | answers
deriving DecidableEq

/-- What the manager of a session offers to one read, and which of its lookups fail. -/
structure Fate where
  declares : Bool
  full : FullRead
  lookups : Nat → Option Fault

def Session.manager (session : Session) (name : JsString) (fate : Fate) : Manager where
  getLeafId := if fate.declares then some (.ok session.leaf) else none
  getLeafEntry := some (.ok (session.leaf.bind session.find))
  getEntry := some fun call id =>
    match fate.lookups call with
    | some (.throws value) => .error (.thrown value)
    | some .missing => .ok none
    | none => .ok (session.find id)
  getEntries :=
    match fate.full with
    | .absent => none
    | .throws value => some (.error (.thrown value))
    | .answers => some (.ok session.entries)
  getSessionId := some (.ok name)

variable {id : JsString}

theorem truthy_of_id {entry : Json} (named : idOf entry = some id)
    : truthy (some entry) = true := by
  cases entry with
  | object members => rfl
  | _ => cases named

theorem byIds_eq_ok {entries : List Json} {byId : JsMap JsString Json}
    (named : ∀ entry ∈ entries, ∃ id, idOf entry = some id) (distinct : (entries.map idOf).Nodup)
    (fresh : ∀ entry ∈ entries, ∀ id, idOf entry = some id → byId.get? id = none)
    : ∃ index, byIds entries byId = .ok index ∧ ∀ id,
        index.get? id = (entries.find? fun entry => idOf entry = some id).or (byId.get? id) := by
  induction entries generalizing byId with
  | nil => exact ⟨byId, rfl, fun id => rfl⟩
  | cons entry rest ih =>
    obtain ⟨own, keyed⟩ := named entry List.mem_cons_self
    have absent : byId.get? own = none := fresh entry List.mem_cons_self own keyed
    have unheld : byId.has own = false := by
      rw [← Bool.not_eq_true, JsMap.has_iff]
      exact JsMap.get?_eq_none_iff.1 absent
    obtain ⟨first, others⟩ := List.nodup_cons.1 distinct
    have apart : ∀ other ∈ rest, ∀ id, idOf other = some id → own ≠ id := by
      rintro other mem id same rfl
      exact first (List.mem_map.2 ⟨other, mem, same.trans keyed.symm⟩)
    have fresh' : ∀ other ∈ rest, ∀ id, idOf other = some id →
        (byId.set own entry).get? id = none := by
      intro other mem id same
      rw [JsMap.get?_set, if_neg (apart other mem id same).symm]
      exact fresh other (List.mem_cons_of_mem _ mem) id same
    obtain ⟨index, built, looked⟩ :=
      ih (fun other mem => named other (List.mem_cons_of_mem _ mem)) others fresh'
    refine ⟨index, ?_, fun id => ?_⟩
    · have keyed' : sessionEntryId (some entry) = some own := keyed
      simp only [byIds, keyed', unheld, Bool.false_eq_true, if_false, built]
    · rw [looked id, JsMap.get?_set, List.find?_cons]
      by_cases same : own = id
      · subst same
        have missing : (rest.find? fun entry => decide (idOf entry = some own)) = none := by
          refine List.find?_eq_none.2 fun other mem held => ?_
          exact apart other mem own (of_decide_eq_true held) rfl
        rw [missing, keyed, if_pos rfl, decide_eq_true rfl]
        rfl
      · rw [if_neg (Ne.symm same), keyed, decide_eq_false (by simpa using same)]

variable {fuel : Nat}

/-- The loop of the full read climbs a path to its root. -/
theorem ancestry_eq_ok {entries : List Json} (distinct : (entries.map idOf).Nodup)
    {byId : JsMap JsString Json}
    (indexed : ∀ entry ∈ entries, ∀ id, idOf entry = some id → byId.get? id = some entry)
    {line : List Json} (path : PathTo entries id line) {before : List Json} {current : Json}
    (ends : line = before ++ [current]) (enough : line.length ≤ fuel) {visited : List JsString}
    (apart : ∀ entry ∈ line, ∀ id ∈ visited, idOf entry ≠ some id) (reverse : List Json)
    : ancestry byId none fuel visited reverse current = .ok (line ++ reverse) := by
  induction path generalizing before current fuel visited reverse with
  | @root node own mem named top =>
    obtain ⟨rfl, rfl⟩ : before = [] ∧ current = node := by
      rw [← List.nil_append [node]] at ends
      exact (List.append_inj' ends rfl).imp Eq.symm fun same => (List.cons.inj same).1.symm
    obtain ⟨fuel, rfl⟩ := Nat.exists_eq_add_of_le' enough
    have named' : sessionEntryId (some current) = some own := named
    have top' : sessionParentId (some current) = some none := top
    have unseen : own ∉ visited := fun seen =>
      apart current List.mem_cons_self own seen named
    simp only [List.length_singleton, ancestry, named', unseen, if_false, atLimit, Option.any_none,
      Bool.false_eq_true, top', List.singleton_append]
  | @step node own above line mem named below path ih =>
    obtain ⟨-, rfl⟩ : before = line ∧ current = node :=
      (List.append_inj' ends rfl).imp Eq.symm fun same => (List.cons.inj same).1.symm
    obtain ⟨before', node', rfl, mem', named'⟩ := path.ends
    rw [List.length_append, List.length_singleton] at enough
    obtain ⟨fuel, rfl⟩ := Nat.exists_eq_add_of_le' (Nat.le_of_add_left_le enough)
    have keyed : sessionEntryId (some current) = some own := named
    have below' : sessionParentId (some current) = some (some above) := below
    have unseen : own ∉ visited := fun seen =>
      apart current (List.mem_append_right _ (List.mem_singleton.2 rfl)) own seen named
    have found : byId.get? above = some node' := indexed node' mem' above named'
    have apart' : ∀ entry ∈ before' ++ [node'], ∀ id ∈ own :: visited, idOf entry ≠ some id := by
      intro entry inside id seen
      rcases List.mem_cons.1 seen with rfl | seen
      · exact path.key_fresh distinct mem named below entry inside
      · exact apart entry (List.mem_append_left _ inside) id seen
    have room : (before' ++ [node']).length ≤ fuel := by omega
    have climbed := ih rfl room apart' (current :: reverse)
    simp only [ancestry, keyed, unseen, if_false, atLimit, Option.any_none, Bool.false_eq_true,
      below', found, climbed, List.append_assoc, List.cons_append, List.nil_append]

variable {session : Session} {branch : List Json}

variable {fate : Fate}

theorem fullActiveBranchRead_eq_ok (known : session.leaf = some id)
    (path : PathTo session.entries id branch) (name : JsString) (answers : fate.full = .answers)
    : fullActiveBranchRead (session.manager name fate) (session.leaf.bind session.find) none
      = .ok branch := by
  obtain ⟨before, entry, rfl, mem, named⟩ := path.ends
  have found : session.find id = some entry := Session.find_eq_some_iff.2 ⟨mem, named⟩
  have bare : ∀ entry ∈ session.entries, ∀ own, idOf entry = some own →
      (JsMap.empty : JsMap JsString Json).get? own = none := fun _ _ _ _ => rfl
  obtain ⟨index, built, looked⟩ := byIds_eq_ok
    (fun entry inside => session.rooted.named inside) session.rooted.distinct bare
  have indexed : ∀ other ∈ session.entries, ∀ own, idOf other = some own →
      index.get? own = some other := by
    intro other inside own keyed
    have first : session.entries.find? (fun entry => decide (idOf entry = some own)) = some other :=
      Session.find_eq_some_iff.2 ⟨inside, keyed⟩
    rw [looked own, first, Option.some_or]
  have room : (before ++ [entry]).length ≤ session.entries.length + 1 :=
    Nat.le_succ_of_le (path.length_le session.rooted.distinct)
  have apart : ∀ other ∈ before ++ [entry], ∀ own ∈ ([] : List JsString), idOf other ≠ some own :=
    fun _ _ _ seen => absurd seen List.not_mem_nil
  have climbed := ancestry_eq_ok session.rooted.distinct indexed path rfl room apart []
  have keyed : sessionEntryId (some entry) = some id := named
  simp only [fullActiveBranchRead, Session.manager, answers, known, Option.bind_some, found, keyed,
    Outcome.ok_bind, built, reduceCtorEq, if_false, pure_bind, indexed entry mem id named, climbed,
    List.append_nil]

/-- Without a leaf the full read answers only for a session without entries. -/
theorem fullActiveBranchRead_empty (known : session.leaf = none) (bare : session.entries = [])
    (name : JsString) (answers : fate.full = .answers)
    : fullActiveBranchRead (session.manager name fate) (session.leaf.bind session.find) none
      = .ok [] := by
  cases declared : fate.declares <;>
    simp only [fullActiveBranchRead, Session.manager, answers, known, bare, declared,
      Option.bind_none, Outcome.ok_bind, byIds, reduceCtorEq, if_false, if_true, sessionEntryId,
      filled, Json.text?, Option.filter_none, leafIdOrNull, Option.getD_none, Option.getD_some,
      List.isEmpty_nil, Bool.false_eq_true] <;> rfl

/-- A read that gives a branch, or fails for want of a full read. -/
def Gives (fate : Fate) (branch : List Json) : Except Failure (List Json) → Prop
  | .ok entries => entries = branch
  | .error error => fate.full ≠ .answers ∧ error ≠ .unfinished

theorem gives_full (known : session.leaf = some id) (path : PathTo session.entries id branch)
    (name : JsString) (fate : Fate)
    : Gives fate branch
        (fullActiveBranchRead (session.manager name fate) (session.leaf.bind session.find)
          none) := by
  cases full : fate.full with
  | answers =>
    rw [fullActiveBranchRead_eq_ok known path name full]
    exact rfl
  | absent =>
    simp only [fullActiveBranchRead, Session.manager, full, Gives, ne_eq, reduceCtorEq,
      not_false_eq_true, and_self]
  | throws value =>
    simp only [fullActiveBranchRead, Session.manager, full, Gives, ne_eq, reduceCtorEq,
      not_false_eq_true, and_self, bind, Except.bind]

theorem walkUp_gives {name : JsString} {leaf : Json}
    {lookup : Nat → JsString → Except Failure (Option Json)}
    (offered : (session.manager name fate).getEntry = some lookup) (full : Gives fate branch
      (fullActiveBranchRead (session.manager name fate) (some leaf) none)) {line : List Json}
    (path : PathTo session.entries id line) {before : List Json} {current : Json}
    (ends : line = before ++ [current]) (enough : line.length ≤ fuel) (calls : Nat)
    (visited : List JsString) {reverse : List Json} (whole : line ++ reverse = branch)
    : Gives fate branch
        (walkUp (session.manager name fate) lookup leaf none fuel calls visited reverse
          current) := by
  induction path generalizing before current fuel calls visited reverse with
  | @root node own mem named top =>
    obtain ⟨rfl, rfl⟩ : before = [] ∧ current = node := by
      rw [← List.nil_append [node]] at ends
      exact (List.append_inj' ends rfl).imp Eq.symm fun same => (List.cons.inj same).1.symm
    obtain ⟨fuel, rfl⟩ := Nat.exists_eq_add_of_le' enough
    have named' : sessionEntryId (some current) = some own := named
    have top' : sessionParentId (some current) = some none := top
    simp only [List.length_singleton, walkUp, named', atLimit, Option.any_none,
      Bool.false_eq_true, if_false, top']
    split
    · exact full
    · exact whole
  | @step node own above line mem named below path ih =>
    obtain ⟨-, rfl⟩ : before = line ∧ current = node :=
      (List.append_inj' ends rfl).imp Eq.symm fun same => (List.cons.inj same).1.symm
    obtain ⟨before', node', rfl, mem', named'⟩ := path.ends
    rw [List.length_append, List.length_singleton] at enough
    obtain ⟨fuel, rfl⟩ := Nat.exists_eq_add_of_le' (Nat.le_of_add_left_le enough)
    have keyed : sessionEntryId (some current) = some own := named
    have below' : sessionParentId (some current) = some (some above) := below
    have found : session.find above = some node' := Session.find_eq_some_iff.2 ⟨mem', named'⟩
    have whole' : before' ++ [node'] ++ current :: reverse = branch := by
      rw [← whole, List.append_assoc _ [current] reverse, List.singleton_append]
    obtain rfl := Option.some.inj offered
    simp only [walkUp, keyed, atLimit, Option.any_none, Bool.false_eq_true, if_false, below']
    split
    · exact full
    cases failing : fate.lookups calls with
    | none =>
      simp only [found, truthy_of_id named', if_true]
      exact ih rfl (by omega) (calls + 1) (own :: visited) whole'
    | some fault =>
      cases fault with
      | throws value => exact full
      | missing => exact full

/-- The walk gives the branch of the leaf, whichever of its lookups fail. -/
theorem walk_gives (known : BranchOf session.entries session.leaf branch) (name : JsString)
    (fate : Fate) (enough : session.entries.length ≤ fuel) (calls : Nat)
    : Gives fate branch
        (walkActiveSessionBranch (session.manager name fate) none fuel calls) := by
  cases leaf : session.leaf with
  | none =>
    rw [leaf] at known
    have bare : branch = [] := known
    cases declared : fate.declares <;>
      simp only [walkActiveSessionBranch, Session.manager, leaf, declared, Option.bind_none,
        reduceCtorEq, if_false, Outcome.ok_bind, walkActiveSessionBranch.leafless, leafIdOrNull,
        Option.getD_none, Option.getD_some, Option.any_none, Bool.false_eq_true, if_true] <;>
      exact bare.symm
  | some id =>
    rw [leaf] at known
    have path : PathTo session.entries id branch := known
    obtain ⟨before, entry, ends, mem, named⟩ := path.ends
    have found : session.leaf.bind session.find = some entry := by
      rw [leaf, Option.bind_some]
      exact Session.find_eq_some_iff.2 ⟨mem, named⟩
    have full := gives_full leaf path name fate
    rw [found] at full
    have walked := walkUp_gives rfl full path ends
      ((path.length_le session.rooted.distinct).trans enough) calls [] (List.append_nil _)
    have offered : (session.manager name fate).getLeafEntry = some (.ok (some entry)) := by
      rw [← found]
      rfl
    unfold walkActiveSessionBranch
    rw [offered]
    simp only [Session.manager, reduceCtorEq, if_false, Outcome.ok_bind, truthy_of_id named,
      if_true]
    exact walked

end PiFabric.Sessions
