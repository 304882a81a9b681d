import PiFabric.Foundation.Outcome
import PiFabric.Records.Append

/-! Completeness and soundness of the records chain. What appends build always verifies, with
every anchor it ever gave; and a table that verifies with an anchor still has the rows that the
anchor covered.
-/

namespace PiFabric.Records

open JsString HashChain Outcome
open Json (Members)

theorem isHash_rowHash (row : Row) : isHash (rowHash row) = true := by
  rw [isHash, rowHash, Sha256.length_hex, Bool.and_eq_true, List.all_eq_true]
  exact ⟨by decide, fun unit => Sha256.isHexUnit_of_mem_hex⟩

/-- An anchor that a request can carry: the empty-chain anchor, or one with a safe sequence and
the hash of a row.
-/
def Wire (anchor : Anchor) : Prop :=
  anchor.seq = 0 ∧ anchor.hash = none
    ∨ ∃ row : Row, 0 < anchor.seq ∧ anchor.seq < Double.exactLimit
      ∧ anchor.hash = some (rowHash row)

def linksOf (anchor : Anchor) : List Link :=
  (anchor.hash.map fun hash => { seq := anchor.seq, hash }).toList

variable {anchor : Anchor}

theorem parseAnchor_json (h : Wire anchor)
    : parseAnchor anchor.json = .ok (linksOf anchor) := by
  have seqField (org seq hash time : Json)
      : Members.get? "seq" [(lit "org", org), (lit "seq", seq), (lit "hash", hash),
          (lit "at", time)] = some seq := rfl
  have hashField (org seq hash time : Json)
      : Members.get? "hash" [(lit "org", org), (lit "seq", seq), (lit "hash", hash),
          (lit "at", time)] = some hash := rfl
  obtain ⟨org, seq, hash, time⟩ := anchor
  rcases h with ⟨zero, none⟩ | ⟨row, positive, exact_, named⟩
  · simp only at zero none
    subst zero none
    rfl
  · simp only at positive exact_ named
    subst named
    simp only [parseAnchor, Anchor.json, seqField, hashField, cell]
    have safe : 1 ≤ seq ∧ seq < Double.exactLimit ∧ isHash (rowHash row) = true :=
      ⟨positive, exact_, isHash_rowHash row⟩
    have nonzero : seq ≠ 0 := by omega
    simpa [nonzero, linksOf] using safe

def verifyInput (anchors : List Anchor) : Option Json :=
  some (.object [(lit "anchors", .array (anchors.map Anchor.json))])

theorem verify_input (org origin : JsString) (anchors : List Anchor) (table : Table)
    : verify org origin (verifyInput anchors) table
      = (parseAnchors (some (.array (anchors.map Anchor.json)))).map fun links =>
          verifyChain org origin links table := by
  have field : Members.get? "anchors" [(lit "anchors", .array (anchors.map Anchor.json))]
      = some (.array (anchors.map Anchor.json)) := rfl
  cases parsed : parseAnchors (some (.array (anchors.map Anchor.json))) <;>
    simp [verify, verifyInput, field, parsed, bind, Except.bind, Except.map]

/-- Anchors that a request can carry are asked for in their order. -/
theorem parseAnchors_wire {anchors : List Anchor} (wire : ∀ anchor ∈ anchors, Wire anchor)
    (few : anchors.length ≤ maxAnchors)
    : parseAnchors (some (.array (anchors.map Anchor.json)))
      = .ok (anchors.flatMap linksOf) := by
  have all : (anchors.map Anchor.json).mapM parseAnchor = .ok (anchors.map linksOf) := by
    rw [mapM_eq_ok, List.forall₂_map_left_iff, List.forall₂_map_right_iff]
    exact List.forall₂_same.mpr fun anchor member => parseAnchor_json (wire anchor member)
  simp only [parseAnchors, List.length_map, few, if_true, all, Except.map, List.flatMap]

/-- An accepted request asks for each anchor it names. -/
theorem linksOf_subset_of_parsed {anchors : List Anchor} {links : List Link}
    (parsed : parseAnchors (some (.array (anchors.map Anchor.json))) = .ok links)
    (member : anchor ∈ anchors) (wire : Wire anchor)
    : linksOf anchor ⊆ links := by
  simp only [parseAnchors] at parsed
  split at parsed
  · obtain ⟨results, all, rfl⟩ := map_eq_ok.mp parsed
    obtain ⟨result, listed, called⟩ :=
      exists_of_mapM_eq_ok all (List.mem_map_of_mem member)
    rw [parseAnchor_json wire] at called
    obtain rfl := Except.ok.inj called
    exact fun link inside => List.mem_flatten.mpr ⟨_, listed, inside⟩
  · exact absurd parsed (by simp)

variable {org origin : JsString}

theorem Chained.sorted {rows : List Row} (h : Chained rows)
    : rows.Pairwise fun a b => a.place < b.place := by
  have seqs : (rows.map Row.seq).Pairwise (· < ·) := by
    rw [Linked.seqs h]
    exact List.pairwise_lt_range'
  rw [List.pairwise_map] at seqs
  exact seqs.imp fun before => Prod.Lex.toLex_lt_toLex.mpr (.inl before)

variable {table : Table}

/-- A table whose rows are a chain as they stand is read in that order. -/
theorem ordered_of_chained (h : Chained table.rows)
    : ordered table = table.rows :=
  Paging.eq_of_mem_iff (Paging.pairwise_after (places_nodup table) _) h.sorted
    fun _ => mem_ordered

theorem Vouches.wire (h : Vouches anchor table) (chained : Chained table.rows)
    : Wire anchor := by
  rcases h with none | ⟨row, inside, seq, hash⟩
  · exact .inl none
  · have bounds := Linked.bounds chained inside
    have few := table.few
    exact .inr ⟨row, by omega, by omega, hash⟩

theorem mem_linksOf {link : Link}
    : link ∈ linksOf anchor ↔ link.seq = anchor.seq ∧ anchor.hash = some link.hash := by
  obtain ⟨org, seq, hash, time⟩ := anchor
  obtain ⟨number, text⟩ := link
  cases hash with
  | none => simp [linksOf]
  | some hash => simp [linksOf, eq_comm]

/-- What appends built verifies with every list of anchors they gave. -/
theorem verify_sound {S : Type} [DecidableEq S] {database : Database S}
    (h : Sound org origin database) {given : List Anchor}
    (returned : ∀ anchor ∈ given, anchor ∈ database.anchors)
    (few : given.length ≤ maxAnchors)
    : ∃ result, verify org origin (verifyInput given) database.table = .ok result
        ∧ result.ok = true := by
  have vouches (anchor : Anchor) (member : anchor ∈ given) : Vouches anchor database.table :=
    h.anchors anchor (returned anchor member)
  refine ⟨verifyChain org origin (given.flatMap linksOf) database.table, ?_, ?_⟩
  · rw [verify_input,
      parseAnchors_wire (fun anchor member => (vouches anchor member).wire h.chained) few]
    rfl
  · rw [verifyChain_ok_iff, ordered_of_chained h.chained]
    refine ⟨h.own, h.chained, ?_⟩
    intro link asked
    obtain ⟨anchor, member, inside⟩ := List.mem_flatMap.mp asked
    obtain ⟨seq, named⟩ := mem_linksOf.mp inside
    rcases vouches anchor member with ⟨-, none⟩ | ⟨row, held, number, hash⟩
    · rw [none] at named
      exact absurd named (by simp)
    · rw [named] at hash
      exact ⟨row, held, number.trans seq.symm, (Option.some.inj hash).symm⟩

theorem ok_parts {anchors : List Link} (ok : (verifyChain org origin anchors table).ok = true)
    : (verifyChain org origin anchors table).break = none
      ∧ (verifyChain org origin anchors table).failed = 0 := by
  simp only [verifyChain, Bool.and_eq_true, Option.isNone_iff_eq_none, List.isEmpty_iff,
    List.length_eq_zero_iff] at ok ⊢
  exact ok

/-- A chain that holds the last row of another, in its place, holds all of it, where no two
rows collide.
-/
theorem rows_of_chained {rows before : List Row} (chained : Chained rows)
    (earlier : Chained before) {last : Row} (inside : last ∈ rows)
    (seq : last.seq = before.length)
    (hash : some (rowHash last) = lastLink rowHash none before)
    (collisionFree : ∀ a ∈ rows, ∀ b ∈ before, rowHash a = rowHash b → a = b)
    : rows.filter (fun row => row.seq ≤ before.length) = before := by
  rw [Linked.filter_le chained, Nat.sub_zero]
  obtain ⟨front, back, rfl⟩ := List.append_of_mem inside
  obtain ⟨-, number, -⟩ := linked_append.mp chained
  have length : before.length = (front ++ [last]).length := by
    rw [← seq, number, List.length_append, List.length_singleton, Nat.zero_add]
  have split : front ++ last :: back = (front ++ [last]) ++ back := by simp
  rw [split] at chained collisionFree ⊢
  rw [length, List.take_left' rfl]
  refine eq_of_lastLink (linked_append.mp chained).1 earlier length.symm ?_ ?_
  · intro a member b member'
    exact collisionFree a (List.mem_append_left _ member) b member'
  · rw [lastLink_snoc, hash]

/-- The records chain is complete and tamper-evident. Whatever appends build has the sequences
1 to n and verifies with every list of anchors it gave. And a table that verifies with an anchor
of a table that verified has, up to that anchor's sequence, exactly the rows of that table,
where no row of the one has the hash of another row of the other.
-/
theorem chain_tamper_evident {S : Type} [DecidableEq S] (org origin : JsString)
    : (∀ database : Database S, Reachable org origin database →
        database.table.rows.map Row.seq = List.range' 1 database.table.rows.length
        ∧ ∀ given, (∀ anchor ∈ given, anchor ∈ database.anchors) →
          given.length ≤ maxAnchors →
          ∃ result, verify org origin (verifyInput given) database.table = .ok result
            ∧ result.break = none ∧ result.failed = 0 ∧ result.ok = true)
      ∧ ∀ table before : Table,
        (verifyChain org origin [] before).ok = true →
        (∀ a ∈ table.rows, ∀ b ∈ before.rows,
          Sha256.hex (canonicalBytes a) = Sha256.hex (canonicalBytes b) →
          canonicalBytes a = canonicalBytes b) →
        ∀ time anchor, anchorOf org origin time before = some anchor →
        ∀ given result, anchor ∈ given →
        verify org origin (verifyInput given) table = .ok result → result.ok = true →
        (table.rows.filter fun row => row.seq ≤ anchor.seq).Perm before.rows := by
  constructor
  · intro database reachable
    have sound := reachable.sound
    refine ⟨Linked.seqs sound.chained, ?_⟩
    intro given returned few
    obtain ⟨result, verified, ok⟩ := verify_sound sound returned few
    rw [verify_input] at verified
    obtain ⟨links, -, rfl⟩ := map_eq_ok.mp verified
    obtain ⟨unbroken, passed⟩ := ok_parts ok
    exact ⟨_, by rw [verify_input, verified], unbroken, passed, ok⟩
  · intro table before verified collisionFree time anchor taken given result member called ok
    obtain ⟨-, earlier, -⟩ := verifyChain_ok_iff.mp verified
    obtain ⟨seq, hash⟩ := anchorOf_chained (ordered_perm before) earlier taken
    rw [verify_input] at called
    obtain ⟨links, parsed, rfl⟩ := map_eq_ok.mp called
    obtain ⟨-, chained, anchors⟩ := verifyChain_ok_iff.mp ok
    have same : (ordered table).filter (fun row => row.seq ≤ (ordered before).length)
        = ordered before := by
      rcases List.eq_nil_or_concat' (ordered before) with empty | ⟨rest, last, split⟩
      · rw [empty, Linked.filter_le chained]
        rfl
      · have named : anchor.hash = some (rowHash last) := by
          rw [hash, split, lastLink_snoc]
        have few := (ordered_perm before).length_eq ▸ before.few
        have positive : 0 < (ordered before).length := by simp [split]
        have wire : Wire anchor := .inr ⟨last, by omega, by omega, named⟩
        have asked : { seq := anchor.seq, hash := rowHash last } ∈ links :=
          linksOf_subset_of_parsed parsed member wire (mem_linksOf.mpr ⟨rfl, named⟩)
        obtain ⟨row, inside, number, sameHash⟩ := anchors _ asked
        refine rows_of_chained chained earlier inside (number.trans seq) ?_ ?_
        · rw [sameHash, ← hash, named]
        · intro a held b held' collide
          exact canonicalBytes_injective
            (collisionFree a (mem_ordered.mp held) b (mem_ordered.mp held') collide)
    rw [seq]
    exact (((ordered_perm table).symm.filter _).trans (.of_eq same)).trans (ordered_perm before)

def firstDraft : Draft where
  id := lit "00000000-0000-4000-8000-000000000001"
  ref := lit "owner/repo#L1"
  kind := lit "issue"
  author := lit "agent"
  authorName := none
  createdAt := lit "1767225600.000000"
  text := none
  data := lit "\x7b\x7d"
  supersedes := none
  key := lit "key"
  payloadHash := lit "payload"

def firstRow : Row where
  id := firstDraft.id
  org := lit "org"
  origin := lit "node"
  seq := 1
  ref := firstDraft.ref
  kind := firstDraft.kind
  author := firstDraft.author
  authorName := none
  createdAt := firstDraft.createdAt
  text := none
  data := firstDraft.data
  supersedes := none
  key := firstDraft.key
  payloadHash := firstDraft.payloadHash
  prevHash := none

def firstTable : Table where
  rows := [firstRow]
  ids := List.nodup_singleton _
  positive := by simp [firstRow]
  few := by decide

def firstAnchor : Anchor where
  org := lit "org"
  seq := 1
  hash := some (rowHash firstRow)
  «at» := lit "2026-01-01T00:00:00.000Z"

theorem anchorOf_firstTable
    : anchorOf (lit "org") (lit "node") (lit "2026-01-01T00:00:00.000Z") firstTable
      = some firstAnchor := by
  have own : Own (lit "org") (lit "node") [firstRow] := by simp [Own, firstRow]
  have chained : Chained [firstRow] := ⟨rfl, rfl, trivial⟩
  have last : lastRow (lit "org") firstTable = some firstRow :=
    lastRow_of_chained (.refl _) own chained
  rw [anchorOf, if_pos (member_of_own own), lastHash, last]
  rfl

/-- Witness: one append and the anchor after it. -/
theorem chain_tamper_evident_first
    : ∃ result, verify (lit "org") (lit "node") (verifyInput [firstAnchor]) firstTable
        = .ok result ∧ result.ok = true := by
  have reachable : Reachable (lit "org") (lit "node")
      ({ table := firstTable, owner := some (), phase := _, anchors := [firstAnchor] }
        : Database Unit) :=
    ((((Relation.ReflTransGen.refl.tail (.lock rfl rfl)).tail
      (@Step.begin _ _ _ _ _ () rfl)).tail
      (@Step.insert _ _ _ _ _ () emptyTable firstDraft firstRow rfl (by decide +kernel))).tail
      (@Step.commit _ _ _ _ _ () firstRow firstTable rfl rfl)).tail
      (.anchor anchorOf_firstTable)
  obtain ⟨-, verifies⟩ := (chain_tamper_evident (lit "org") (lit "node")).1 _ reachable
  obtain ⟨result, verified, -, -, ok⟩ := verifies [firstAnchor] (by simp) (by decide)
  exact ⟨result, verified, ok⟩

end PiFabric.Records
