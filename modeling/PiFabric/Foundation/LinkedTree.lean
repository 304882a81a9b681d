import Mathlib.Data.List.Basic
import Mathlib.Data.List.Induction
import Mathlib.Tactic.Cases

/-! Trees of directories, files and symbolic links, and how a kernel looks a path up in them. A
path is read name by name.
-/

namespace PiFabric.LinkedTree

/-- One step of a path: stay in the directory, go to its parent, or go to one of its names. -/
inductive Segment (N : Type) where
  | here
  | up
  | name (name : N)
deriving DecidableEq

/-- What a link spells: a path from the root, or from the link's directory. -/
structure Target (N : Type) where
  absolute : Bool
  segments : List (Segment N)
deriving DecidableEq

/-- A file, a link, or a directory with what is recorded about it. -/
inductive Node (N D : Type) where
  | file
  | link (target : Target N)
  | directory (data : D) (entries : List (N × Node N D))

namespace Node

variable {N D : Type} [BEq N]

def target? : Node N D → Option (Target N)
  | link target => some target
  | _ => none

def entries? : Node N D → Option (List (N × Node N D))
  | directory _ entries => some entries
  | _ => none

/-- The node that a list of names leads to, with no link followed. -/
def find : Node N D → List N → Option (Node N D)
  | node, [] => some node
  | directory _ entries, name :: rest => (entries.lookup name).bind fun child => child.find rest
  | _, _ :: _ => none

end Node

structure Tree (N D : Type) where
  data : D
  entries : List (N × Node N D)

inductive Progress (N : Type) where
  | arrived (location : List N)
  /-- The directory has no such name. -/
  | missing (parent : List N) (name : N) (rest : List (Segment N))
  /-- A name or a dot is asked of something that is no directory. -/
  | failed
  | link (parent : List N) (name : N) (target : Target N) (rest : List (Segment N))
deriving DecidableEq

inductive Lookup (N : Type) where
  | arrived (location : List N)
  | missing (parent : List N) (name : N) (rest : List (Segment N))
  | failed
deriving DecidableEq

namespace Target

variable {N : Type}

def start (target : Target N) (directory : List N) : List N :=
  if target.absolute then [] else directory

end Target

def collapse {N : Type} (location : List N) : List (Segment N) → List N
  | [] => location
  | .here :: rest => collapse location rest
  | .up :: rest => collapse location.dropLast rest
  | .name name :: rest => collapse (location ++ [name]) rest

def namesOf {N : Type} : List (Segment N) → List N
  | [] => []
  | .name name :: rest => name :: namesOf rest
  | _ :: rest => namesOf rest

namespace Tree

variable {N D : Type} [BEq N]

def root (tree : Tree N D) : Node N D :=
  .directory tree.data tree.entries

def find (tree : Tree N D) (location : List N) : Option (Node N D) :=
  tree.root.find location

/-- The entries of a directory, none where the location holds no directory. -/
def list (tree : Tree N D) (location : List N) : Option (List (N × Node N D)) :=
  (tree.find location).bind Node.entries?

/-- A name in a directory: `none` where there is no directory, `some none` where it has no such
name.
-/
def child (tree : Tree N D) (location : List N) (name : N) : Option (Option (Node N D)) :=
  (tree.list location).map fun entries => entries.lookup name

/-- Reads a path up to its next link. The last name is no link to follow where `follow` is off. -/
def advance (tree : Tree N D) (follow : Bool) : List N → List (Segment N) → Progress N
  | location, [] => .arrived location
  | location, .here :: rest =>
      if (tree.list location).isSome then tree.advance follow location rest else .failed
  | location, .up :: rest =>
      if (tree.list location).isSome then tree.advance follow location.dropLast rest else .failed
  | location, .name name :: rest =>
      match tree.child location name with
      | none => .failed
      | some none => .missing location name rest
      | some (some node) =>
          match node.target? with
          | none => tree.advance follow (location ++ [name]) rest
          | some target =>
              if rest.isEmpty && !follow then .arrived (location ++ [name])
              else .link location name target rest

/-- Reads a whole path, with at most so many links followed. -/
def walk (tree : Tree N D) (follow : Bool) : Nat → List N → List (Segment N) → Lookup N
  | links, location, segments =>
      match tree.advance follow location segments with
      | .arrived location => .arrived location
      | .missing parent name rest => .missing parent name rest
      | .failed => .failed
      | .link parent _ target rest =>
          match links with
          | 0 => .failed
          | links + 1 => tree.walk follow links (target.start parent) (target.segments ++ rest)

/-- A path leads to an outcome through so many links. -/
inductive Leads (tree : Tree N D) : Nat → List N → List (Segment N) → Lookup N → Prop
  | done (location : List N) : Leads tree 0 location [] (.arrived location)
  | here {links : Nat} {location : List N} {rest : List (Segment N)} {outcome : Lookup N}
      (directory : (tree.list location).isSome) (more : Leads tree links location rest outcome)
      : Leads tree links location (.here :: rest) outcome
  | up {links : Nat} {location : List N} {rest : List (Segment N)} {outcome : Lookup N}
      (directory : (tree.list location).isSome)
      (more : Leads tree links location.dropLast rest outcome)
      : Leads tree links location (.up :: rest) outcome
  | missing {location : List N} {name : N} (rest : List (Segment N))
      (absent : tree.child location name = some none)
      : Leads tree 0 location (.name name :: rest) (.missing location name rest)
  | plain {links : Nat} {location : List N} {name : N} {rest : List (Segment N)}
      {outcome : Lookup N} {node : Node N D} (found : tree.child location name = some (some node))
      (plain : node.target? = none) (more : Leads tree links (location ++ [name]) rest outcome)
      : Leads tree links location (.name name :: rest) outcome
  | link {links : Nat} {location : List N} {name : N} {rest : List (Segment N)}
      {outcome : Lookup N} {node : Node N D} {target : Target N}
      (found : tree.child location name = some (some node)) (links_to : node.target? = some target)
      (more : Leads tree links (target.start location) (target.segments ++ rest) outcome)
      : Leads tree (links + 1) location (.name name :: rest) outcome

/-- A location with no link on its way, where something is. -/
def Real (tree : Tree N D) (location : List N) : Prop :=
  tree.Leads 0 [] (location.map .name) (.arrived location)

/-- What is left over of segments at the first link on their way. -/
def afterLink (tree : Tree N D) (location : List N) (segments : List (Segment N))
    : List (Segment N) :=
  match tree.advance true location segments with
  | .link _ _ _ rest => rest
  | _ => []

/-- No step to a parent comes after the first link on the way: reading the segments by their text
alone then agrees with following them. -/
def Straight (tree : Tree N D) (location : List N) (segments : List (Segment N)) : Prop :=
  .up ∉ tree.afterLink location segments

instance [DecidableEq N] (tree : Tree N D) (location : List N) (segments : List (Segment N))
    : Decidable (tree.Straight location segments) :=
  inferInstanceAs (Decidable (.up ∉ tree.afterLink location segments))

variable {tree : Tree N D} {location : List N} {name : N}

variable {node : Node N D}

variable {parent : List N} {rest segments : List (Segment N)} {target : Target N}

variable {names : List N}

variable {first : Nat} {outcome : Lookup N}

variable {middle : List N}

theorem Leads.append {second : Nat} (h : tree.Leads first location segments (.arrived middle))
    (more : tree.Leads second middle rest outcome)
    : tree.Leads (first + second) location (segments ++ rest) outcome := by
  generalize reached : Lookup.arrived middle = result at h
  induction h with
  | done location =>
      cases reached
      simpa using more
  | here directory _ ih => exact .here directory (ih reached)
  | up directory _ ih => exact .up directory (ih reached)
  | missing => cases reached
  | plain found plain _ ih => exact .plain found plain (ih reached)
  | @link links _ _ _ _ _ _ found target _ ih =>
      have h := Leads.link found target (by simpa using ih reached)
      rwa [Nat.add_right_comm] at h

variable {links : Nat}

/-- What follows a part that arrives is read from where it arrives, by induction on that part. -/
theorem Leads.suffix (h : tree.Leads first location segments (.arrived middle))
    (whole : tree.Leads links location (segments ++ rest) outcome)
    : ∃ second, links = first + second ∧ tree.Leads second middle rest outcome := by
  generalize reached : Lookup.arrived middle = result at h
  induction h generalizing links with
  | done location =>
      cases reached
      exact ⟨links, by simp, whole⟩
  | here _ _ ih =>
      cases whole with
      | here _ more => exact ih more reached
  | up _ _ ih =>
      cases whole with
      | up _ more => exact ih more reached
  | missing => cases reached
  | plain found plain _ ih =>
      cases whole with
      | missing _ absent => simp [found] at absent
      | plain _ _ more => exact ih more reached
      | link other target _ =>
          obtain rfl := Option.some.inj (Option.some.inj (found.symm.trans other))
          simp [plain] at target
  | link found target _ ih =>
      cases whole with
      | missing _ absent => simp [found] at absent
      | plain other plain _ =>
          obtain rfl := Option.some.inj (Option.some.inj (found.symm.trans other))
          simp [plain] at target
      | link other same more =>
          obtain rfl := Option.some.inj (Option.some.inj (found.symm.trans other))
          obtain rfl := Option.some.inj (target.symm.trans same)
          obtain ⟨second, count, h⟩ := ih (by simpa using more) reached
          exact ⟨second, by omega, h⟩

variable {finish : List N}

/-- A path that arrives does so through the place its first part leads to, by induction on it. -/
theorem Leads.split (h : tree.Leads links location (segments ++ rest) (.arrived finish))
    : ∃ first second middle, links = first + second
        ∧ tree.Leads first location segments (.arrived middle)
        ∧ tree.Leads second middle rest (.arrived finish) := by
  generalize whole : segments ++ rest = all at h
  generalize reached : Lookup.arrived finish = result at h
  induction h generalizing segments with
  | done location =>
      cases reached
      obtain ⟨rfl, rfl⟩ := List.append_eq_nil_iff.mp whole
      exact ⟨0, 0, _, rfl, .done _, .done _⟩
  | here directory more ih =>
      cases segments with
      | nil =>
          obtain rfl : rest = _ := whole
          exact ⟨0, _, _, (Nat.zero_add _).symm, .done _, .here directory more⟩
      | cons segment tail =>
          obtain ⟨rfl, same⟩ := List.cons_eq_cons.mp whole
          obtain ⟨first, second, middle, count, before, after⟩ := ih same reached
          exact ⟨first, second, middle, count, .here directory before, after⟩
  | up directory more ih =>
      cases segments with
      | nil =>
          obtain rfl : rest = _ := whole
          exact ⟨0, _, _, (Nat.zero_add _).symm, .done _, .up directory more⟩
      | cons segment tail =>
          obtain ⟨rfl, same⟩ := List.cons_eq_cons.mp whole
          obtain ⟨first, second, middle, count, before, after⟩ := ih same reached
          exact ⟨first, second, middle, count, .up directory before, after⟩
  | missing => cases reached
  | plain found plain more ih =>
      cases segments with
      | nil =>
          obtain rfl : rest = _ := whole
          exact ⟨0, _, _, (Nat.zero_add _).symm, .done _, .plain found plain more⟩
      | cons segment tail =>
          obtain ⟨rfl, same⟩ := List.cons_eq_cons.mp whole
          obtain ⟨first, second, middle, count, before, after⟩ := ih same reached
          exact ⟨first, second, middle, count, .plain found plain before, after⟩
  | link found target more ih =>
      cases segments with
      | nil =>
          obtain rfl : rest = _ := whole
          exact ⟨0, _, _, (Nat.zero_add _).symm, .done _, .link found target more⟩
      | cons segment tail =>
          obtain ⟨rfl, rfl⟩ := List.cons_eq_cons.mp whole
          obtain ⟨first, second, middle, count, before, after⟩ :=
            ih (List.append_assoc _ _ _) reached
          exact ⟨first + 1, second, middle, by omega, .link found target before, after⟩

variable {follow : Bool}

theorem Real.append (real : tree.Real location)
    (found : tree.child location name = some (some node)) (plain : node.target? = none)
    : tree.Real (location ++ [name]) := by
  have h := Leads.append real (.plain found plain (.done _))
  simpa [Real] using h

theorem Real.dropLast (real : tree.Real location)
    : tree.Real location.dropLast := by
  induction location using List.reverseRecOn with
  | nil => exact real
  | append_singleton before name _ =>
      have h : tree.Leads 0 [] (before.map .name ++ [.name name])
          (.arrived (before ++ [name])) := by
        simpa [Real] using real
      obtain ⟨first, second, middle, count, there, last⟩ := h.split
      obtain ⟨rfl, rfl⟩ : first = 0 ∧ second = 0 := by omega
      generalize whole : before ++ [name] = finish at last
      cases last with
      | plain _ _ more =>
          cases more
          obtain rfl : before = middle := List.append_inj_left' whole rfl
          simpa [Real] using there

/-- What follows a real location in a path is read from it. -/
theorem Real.suffix (real : tree.Real location)
    (whole : tree.Leads links [] ((location ++ names).map .name) outcome)
    : tree.Leads links location (names.map .name) outcome := by
  rw [List.map_append] at whole
  obtain ⟨second, count, more⟩ := Leads.suffix real whole
  rwa [count, Nat.zero_add]

end Tree

end PiFabric.LinkedTree
