import Mathlib.Data.List.Nodup
import Mathlib.Data.List.Perm.Subperm

/-! Nodes that name themselves and their parents, as rows of a tree that only grows. -/

namespace PiFabric.Ancestry

variable {ν κ : Type*} {key : ν → Option κ} {parent : ν → Option (Option κ)}

/-- The nodes from a root down to the node of a key, each the parent of the next one. -/
inductive Path (key : ν → Option κ) (parent : ν → Option (Option κ)) (nodes : List ν)
    : κ → List ν → Prop
  | root {node : ν} {own : κ} (mem : node ∈ nodes) (named : key node = some own)
      (top : parent node = some none)
      : Path key parent nodes own [node]
  | step {node : ν} {own above : κ} {line : List ν} (mem : node ∈ nodes)
      (named : key node = some own) (below : parent node = some (some above))
      (path : Path key parent nodes above line)
      : Path key parent nodes own (line ++ [node])

/-- A forest: every node has a key of its own, and a path leads down to it from a root. -/
structure Rooted (key : ν → Option κ) (parent : ν → Option (Option κ)) (nodes : List ν) : Prop where
  distinct : (nodes.map key).Nodup
  reached : ∀ node ∈ nodes, ∃ own line, key node = some own ∧ Path key parent nodes own line

variable {nodes line : List ν} {own : κ}

theorem Path.ends (path : Path key parent nodes own line)
    : ∃ before node, line = before ++ [node] ∧ node ∈ nodes ∧ key node = some own := by
  cases path with
  | root mem named top => exact ⟨[], _, rfl, mem, named⟩
  | step mem named below path => exact ⟨_, _, rfl, mem, named⟩

theorem Path.subset (path : Path key parent nodes own line)
    : line ⊆ nodes := by
  induction path with
  | root mem named top => exact List.cons_subset.2 ⟨mem, List.nil_subset _⟩
  | step mem named below path ih =>
    exact List.append_subset.2 ⟨ih, List.cons_subset.2 ⟨mem, List.nil_subset _⟩⟩

/-- A path stays one when nodes are added. -/
theorem Path.mono {more : List ν} (path : Path key parent nodes own line) (grown : nodes ⊆ more)
    : Path key parent more own line := by
  induction path with
  | root mem named top => exact .root (grown mem) named top
  | step mem named below path ih => exact .step (grown mem) named below ih

theorem eq_of_key (distinct : (nodes.map key).Nodup) {left right : ν} (hl : left ∈ nodes)
    (hr : right ∈ nodes) (same : key left = key right)
    : left = right :=
  List.inj_on_of_nodup_map distinct hl hr same

/-- Only one path leads to a key. -/
theorem Path.unique (distinct : (nodes.map key).Nodup) {other : List ν}
    (path : Path key parent nodes own line) (path' : Path key parent nodes own other)
    : line = other := by
  induction path generalizing other with
  | root mem named top =>
    cases path' with
    | root mem' named' top' => rw [eq_of_key distinct mem mem' (named.trans named'.symm)]
    | step mem' named' below' path' =>
      obtain rfl := eq_of_key distinct mem mem' (named.trans named'.symm)
      rw [top] at below'
      cases below'
  | step mem named below path ih =>
    cases path' with
    | root mem' named' top' =>
      obtain rfl := eq_of_key distinct mem mem' (named.trans named'.symm)
      rw [top'] at below
      cases below
    | step mem' named' below' path' =>
      obtain rfl := eq_of_key distinct mem mem' (named.trans named'.symm)
      obtain ⟨rfl⟩ : _ = _ := Option.some.inj (Option.some.inj (below.symm.trans below'))
      rw [ih path']

variable {node : ν}

/-- The path to a node of a path is the part of it that ends with that node. -/
theorem Path.split (path : Path key parent nodes own line) (mem : node ∈ line)
    : ∃ before after, line = before ++ node :: after
      ∧ ∃ inner, key node = some inner ∧ Path key parent nodes inner (before ++ [node]) := by
  induction path with
  | root here named top =>
    obtain rfl := List.mem_singleton.1 mem
    exact ⟨[], [], rfl, _, named, .root here named top⟩
  | @step last own above line here named below path ih =>
    rcases List.mem_append.1 mem with inside | atEnd
    · obtain ⟨before, after, rfl, inner, keyed, front⟩ := ih inside
      exact ⟨before, after ++ [last], by simp, inner, keyed, front⟩
    · obtain rfl := List.mem_singleton.1 atEnd
      exact ⟨line, [], rfl, own, named, .step here named below path⟩

/-- No ancestor of a node has its key: the path to it would be a part of itself. -/
theorem Path.key_fresh (distinct : (nodes.map key).Nodup) {above : κ} (mem : node ∈ nodes)
    (named : key node = some own) (below : parent node = some (some above))
    (path : Path key parent nodes above line)
    : ∀ other ∈ line, key other ≠ some own := by
  intro other inside same
  obtain ⟨before, after, rfl, inner, keyed, front⟩ := path.split inside
  obtain rfl : inner = own := Option.some.inj (keyed.symm.trans same)
  have whole := front.unique distinct (.step mem named below path)
  have sizes := congrArg List.length whole
  simp only [List.length_append, List.length_cons, List.length_nil] at sizes
  omega

theorem Path.keys_nodup (distinct : (nodes.map key).Nodup) (path : Path key parent nodes own line)
    : (line.map key).Nodup := by
  induction path with
  | root mem named top => exact List.nodup_singleton _
  | step mem named below path ih =>
    rw [List.map_append, List.nodup_append]
    refine ⟨ih, List.nodup_singleton _, ?_⟩
    rintro k inside k' last rfl
    obtain ⟨other, hm, rfl⟩ := List.mem_map.1 inside
    obtain same := List.mem_singleton.1 last
    exact path.key_fresh distinct mem named below other hm (same.trans named)

theorem Path.length_le (distinct : (nodes.map key).Nodup) (path : Path key parent nodes own line)
    : line.length ≤ nodes.length := by
  have unique : line.Nodup := List.Nodup.of_map _ (path.keys_nodup distinct)
  exact (unique.subperm path.subset).length_le

theorem Rooted.nil : Rooted key parent [] :=
  ⟨List.nodup_nil, fun _ mem => absurd mem List.not_mem_nil⟩

theorem Rooted.named (rooted : Rooted key parent nodes) (mem : node ∈ nodes)
    : ∃ own, key node = some own := by
  obtain ⟨own, line, named, -⟩ := rooted.reached node mem
  exact ⟨own, named⟩

/-- A new node under an old one, or under none, grows a forest. -/
theorem Rooted.append (rooted : Rooted key parent nodes) (named : key node = some own)
    (fresh : ∀ other ∈ nodes, key other ≠ some own) (placed : parent node = some none
      ∨ ∃ other ∈ nodes, ∃ above, key other = some above ∧ parent node = some (some above))
    : Rooted key parent (nodes ++ [node]) := by
  have grown : nodes ⊆ nodes ++ [node] := List.subset_append_left _ _
  have last : node ∈ nodes ++ [node] := List.mem_append_right _ (List.mem_singleton.2 rfl)
  refine ⟨?_, ?_⟩
  · rw [List.map_append, List.nodup_append]
    refine ⟨rooted.distinct, List.nodup_singleton _, ?_⟩
    rintro k inside k' atEnd rfl
    obtain ⟨other, hm, rfl⟩ := List.mem_map.1 inside
    exact fresh other hm ((List.mem_singleton.1 atEnd).trans named)
  · intro other mem
    rcases List.mem_append.1 mem with old | new
    · obtain ⟨k, line, keyed, path⟩ := rooted.reached other old
      exact ⟨k, line, keyed, path.mono grown⟩
    · obtain rfl := List.mem_singleton.1 new
      rcases placed with top | ⟨above, hm, k, keyed, below⟩
      · exact ⟨own, _, named, .root last named top⟩
      · obtain ⟨k', line, keyed', path⟩ := rooted.reached above hm
        obtain rfl : k' = k := Option.some.inj (keyed'.symm.trans keyed)
        exact ⟨own, _, named, .step last named below (path.mono grown)⟩

end PiFabric.Ancestry
