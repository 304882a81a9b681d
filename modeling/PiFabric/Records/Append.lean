import PiFabric.Records.Verify

/-! Appends. Each is a transaction of a session: it takes the org's lock, then a snapshot, decides
on the snapshot, and commits at most one row before it lets the lock go.
-/

namespace PiFabric.Records

open JsString HashChain

/-- What a call and the database give a new row, apart from its place in the chain. -/
structure Draft where
  id : JsString
  ref : JsString
  kind : JsString
  author : JsString
  authorName : Option JsString
  createdAt : JsString
  text : Option JsString
  data : JsString
  supersedes : Option JsString
  key : JsString
  payloadHash : JsString

inductive Decision where
  /-- `RECORD_INTEGRITY`: the table holds a row of another org or origin. -/
  | refused
  /-- `RECORD_KEY_CONFLICT`: the key was used for another payload. -/
  | conflict (existing : Row)
  /-- The receipt of the record the key already has. -/
  | repeated (existing : Row)
  | insert (row : Row)
  deriving DecidableEq

def nextSeq (origin : JsString) (table : Table) : Nat :=
  ((table.rows.filter fun row => row.origin = origin).map Row.seq).foldl max 0 + 1

def decideAppend (org origin : JsString) (snapshot : Table) (draft : Draft) : Decision :=
  if member org origin snapshot then
    match snapshot.rows.find? fun row =>
        row.org = org && row.author = draft.author && row.key = draft.key with
    | some found =>
        if found.payloadHash ≠ draft.payloadHash then .conflict found else .repeated found
    | none => .insert {
        id := draft.id
        org
        origin
        seq := nextSeq origin snapshot
        ref := draft.ref
        kind := draft.kind
        author := draft.author
        authorName := draft.authorName
        createdAt := draft.createdAt
        text := draft.text
        data := draft.data
        supersedes := draft.supersedes
        key := draft.key
        payloadHash := draft.payloadHash
        prevHash := (lastHash org snapshot).map Link.hash
      }
  else .refused

inductive Phase where
  | idle
  /-- The org's lock is held and no snapshot is taken. -/
  | locked
  | reading (snapshot : Table)
  /-- The row is written and not committed. -/
  | inserted (row : Row)
  /-- Committed or rolled back, with the lock still held. -/
  | ended

/-- The database with the sessions that append, and the anchors it has given. -/
structure Database (S : Type) where
  table : Table
  owner : Option S
  phase : S → Phase
  anchors : List Anchor

variable {S : Type} [DecidableEq S]

def Database.move (database : Database S) (session : S) (phase : Phase) : Database S where
  table := database.table
  owner := database.owner
  phase := Function.update database.phase session phase
  anchors := database.anchors

def emptyTable : Table where
  rows := []
  ids := List.nodup_nil
  positive := by simp
  few := by decide

def Database.initial : Database S where
  table := emptyTable
  owner := none
  phase := fun _ => .idle
  anchors := []

inductive Step (org origin : JsString) : Database S → Database S → Prop
  /-- `pg_advisory_lock`, before `BEGIN`. -/
  | lock {database : Database S} {session : S} (idle : database.phase session = .idle)
      (free : database.owner = none)
      : Step org origin database
        { database.move session .locked with owner := some session }
  /-- The first query of a REPEATABLE READ transaction. -/
  | begin {database : Database S} {session : S} (locked : database.phase session = .locked)
      : Step org origin database (database.move session (.reading database.table))
  | insert {database : Database S} {session : S} {snapshot : Table} {draft : Draft} {row : Row}
      (reading : database.phase session = .reading snapshot)
      (decided : decideAppend org origin snapshot draft = .insert row)
      : Step org origin database (database.move session (.inserted row))
  /-- The constraints hold of the table that results. -/
  | commit {database : Database S} {session : S} {row : Row} {next : Table}
      (inserted : database.phase session = .inserted row)
      (rows : next.rows = database.table.rows ++ [row])
      : Step org origin database { database.move session .ended with table := next }
  /-- An answer without a row, a refusal, a failure of any statement, or an abort. -/
  | finish {database : Database S} {session : S} (busy : database.phase session ≠ .idle)
      : Step org origin database (database.move session .ended)
  | unlock {database : Database S} {session : S} (ended : database.phase session = .ended)
      : Step org origin database { database.move session .idle with owner := none }
  | anchor {database : Database S} {time : JsString} {anchor : Anchor}
      (taken : anchorOf org origin time database.table = some anchor)
      : Step org origin database { database with anchors := anchor :: database.anchors }

/-- A database reached by appends from the empty table. -/
def Reachable (org origin : JsString) (database : Database S) : Prop :=
  Relation.ReflTransGen (Step org origin) Database.initial database

variable {org origin : JsString}

variable {table : Table}

theorem own_of_member (h : member org origin table = true)
    : Own org origin table.rows := by
  intro row inside
  simpa using List.all_eq_true.mp h row inside

theorem member_of_own (h : Own org origin table.rows)
    : member org origin table = true := by
  rw [member, List.all_eq_true]
  intro row inside
  simpa using h row inside

variable {rows : List Row}

/-- The last row of a chain has the greatest sequence of the table it orders. -/
theorem lastRow_of_chained (same : rows.Perm table.rows) (own : Own org origin rows)
    (chained : Chained rows)
    : lastRow org table = rows.getLast? := by
  have all : table.rows.filter (fun row => row.org = org) = table.rows := by
    rw [List.filter_eq_self]
    intro row inside
    simpa using (own row (same.mem_iff.mpr inside)).1
  rw [lastRow, all]
  rcases List.eq_nil_or_concat' rows with rfl | ⟨rest, last, rfl⟩
  · rw [List.nil_perm.mp same]
    rfl
  · rw [List.getLast?_concat, List.argmax_eq_some_iff]
    have final : last ∈ rest ++ [last] := by simp
    obtain ⟨before, number, -⟩ := linked_append.mp chained
    have bound (row : Row) (inside : row ∈ table.rows) : row.seq < last.seq ∨ row = last := by
      rcases List.mem_append.mp (same.mem_iff.mpr inside) with old | new
      · have bounds := Linked.bounds before old
        exact .inl (by omega)
      · exact .inr (List.mem_singleton.mp new)
    refine ⟨same.mem_iff.mp final, ?_, ?_⟩
    · intro row inside
      rcases bound row inside with below | rfl
      · exact Nat.le_of_lt below
      · exact le_refl _
    · intro row inside reaches
      rcases bound row inside with below | rfl
      · exact absurd reaches (not_le.mpr below)
      · exact le_refl _

theorem foldl_max_range' (count : Nat) : (List.range' 1 count).foldl max 0 = count := by
  induction count with
  | zero => rfl
  | succ count ih =>
      rw [List.range'_concat, List.foldl_append, ih]
      simp
      omega

theorem nextSeq_of_chained (own : Own org origin table.rows) (chained : Chained table.rows)
    : nextSeq origin table = table.rows.length + 1 := by
  have all : table.rows.filter (fun row => row.origin = origin) = table.rows := by
    rw [List.filter_eq_self]
    intro row inside
    simpa using (own row inside).2
  rw [nextSeq, all, Linked.seqs chained, foldl_max_range']

theorem lastLink_of_chained (same : rows.Perm table.rows) (own : Own org origin rows)
    (chained : Chained rows)
    : lastLink rowHash none rows = (lastHash org table).map Link.hash := by
  rw [lastHash, lastRow_of_chained same own chained]
  rcases List.eq_nil_or_concat' rows with rfl | ⟨rest, last, rfl⟩
  · rfl
  · rw [lastLink_snoc, List.getLast?_concat]
    rfl

theorem insert_chained {snapshot : Table} {draft : Draft} {row : Row}
    (decided : decideAppend org origin snapshot draft = .insert row)
    (chained : Chained snapshot.rows)
    : Own org origin (snapshot.rows ++ [row]) ∧ Chained (snapshot.rows ++ [row]) := by
  unfold decideAppend at decided
  split at decided
  · next allowed =>
      have own := own_of_member allowed
      split at decided
      · split at decided <;> exact absurd decided (by simp)
      · obtain rfl := Decision.insert.inj decided
        constructor
        · intro other inside
          rcases List.mem_append.mp inside with old | new
          · exact own other old
          · rw [List.mem_singleton.mp new]
            exact ⟨rfl, rfl⟩
        · refine linked_append.mpr ⟨chained, ?_, ?_, trivial⟩
          · rw [nextSeq_of_chained own chained, Nat.zero_add]
          · exact (lastLink_of_chained (.refl _) own chained).symm
  · exact absurd decided (by simp)

/-- The empty-chain anchor, or one that names a row of the table with its hash. -/
def Vouches (anchor : Anchor) (table : Table) : Prop :=
  anchor.seq = 0 ∧ anchor.hash = none
    ∨ ∃ row ∈ table.rows, row.seq = anchor.seq ∧ anchor.hash = some (rowHash row)

structure Sound (org origin : JsString) (database : Database S) : Prop where
  own : Own org origin database.table.rows
  chained : Chained database.table.rows
  owner : ∀ session, database.phase session ≠ .idle → database.owner = some session
  snapshot : ∀ session snapshot, database.phase session = .reading snapshot →
    snapshot = database.table
  pending : ∀ session row, database.phase session = .inserted row →
    Own org origin (database.table.rows ++ [row])
      ∧ Chained (database.table.rows ++ [row])
  anchors : ∀ anchor ∈ database.anchors, Vouches anchor database.table

omit [DecidableEq S] in
theorem sound_initial : Sound org origin (Database.initial : Database S) where
  own := by simp [Own, Database.initial, emptyTable]
  chained := trivial
  owner := fun _ busy => absurd rfl busy
  snapshot := fun _ _ reading => absurd reading (by simp [Database.initial])
  pending := fun _ _ inserted => absurd inserted (by simp [Database.initial])
  anchors := by simp [Database.initial]

variable {database : Database S}

theorem move_phase {session other : S} {phase : Phase}
    : (database.move session phase).phase other
      = if other = session then phase else database.phase other :=
  Function.update_apply ..

/-- A session that owns the lock, or takes it, moves on without touching the table. -/
theorem Sound.move (h : Sound org origin database) {session : S} {phase : Phase} {owner : Option S}
    (others : ∀ other, other ≠ session → database.phase other ≠ .idle → owner = some other)
    (own : phase ≠ .idle → owner = some session)
    (snapshot : ∀ snapshot, phase = .reading snapshot → snapshot = database.table)
    (pending : ∀ row, phase = .inserted row →
      Own org origin (database.table.rows ++ [row]) ∧ Chained (database.table.rows ++ [row]))
    : Sound org origin { database.move session phase with owner := owner } where
  own := h.own
  chained := h.chained
  owner := by
    intro other busy
    simp only [move_phase] at busy
    split at busy
    · next same =>
        rw [same]
        exact own busy
    · next apart => exact others other apart busy
  snapshot := by
    intro other taken reading
    simp only [move_phase] at reading
    split at reading
    · exact snapshot taken reading
    · exact h.snapshot other taken reading
  pending := by
    intro other row inserted
    simp only [move_phase] at inserted
    split at inserted
    · exact pending row inserted
    · exact h.pending other row inserted
  anchors := h.anchors

/-- An anchor of a chain names its last row, or that there is none. -/
theorem anchorOf_chained (same : rows.Perm table.rows) (chained : Chained rows) {time : JsString}
    {anchor : Anchor} (taken : anchorOf org origin time table = some anchor)
    : anchor.seq = rows.length ∧ anchor.hash = lastLink rowHash none rows := by
  unfold anchorOf at taken
  split at taken
  · next allowed =>
      have own : Own org origin rows := fun row inside =>
        own_of_member allowed row (same.mem_iff.mp inside)
      obtain rfl := Option.some.inj taken
      refine ⟨?_, (lastLink_of_chained same own chained).symm⟩
      have few := same.length_eq ▸ table.few
      simp only [lastHash, lastRow_of_chained same own chained]
      rcases List.eq_nil_or_concat' rows with rfl | ⟨rest, last, rfl⟩
      · rfl
      · obtain ⟨-, number, -⟩ := linked_append.mp chained
        rw [List.length_append, List.length_singleton] at few ⊢
        rw [List.getLast?_concat]
        simp only [Option.map_some, Option.getD_some, number]
        rw [Double.ofNat_of_le (by omega)]
        omega
  · exact absurd taken (by simp)

theorem anchorOf_vouches {time : JsString} {anchor : Anchor}
    (taken : anchorOf org origin time table = some anchor) (chained : Chained table.rows)
    : Vouches anchor table := by
  obtain ⟨seq, hash⟩ := anchorOf_chained (.refl _) chained taken
  rcases List.eq_nil_or_concat' table.rows with empty | ⟨rest, last, split⟩
  · rw [empty] at seq hash
    exact .inl ⟨seq, hash⟩
  · rw [split] at seq hash chained
    obtain ⟨-, number, -⟩ := linked_append.mp chained
    refine .inr ⟨last, by simp [split], ?_, ?_⟩
    · rw [number, seq, List.length_append, List.length_singleton, Nat.zero_add]
    · rw [hash, lastLink_snoc]

theorem Step.sound {next : Database S} (step : Step org origin database next)
    (h : Sound org origin database)
    : Sound org origin next := by
  cases step with
  | @lock session idle free =>
      refine h.move ?_ (fun _ => rfl) (by simp) (by simp)
      intro other _ busy
      have owned := h.owner other busy
      rw [free] at owned
      exact absurd owned (by simp)
  | @begin session locked =>
      have owned := h.owner session (by simp [locked])
      refine h.move (fun other _ => h.owner other) (fun _ => owned) ?_ (by simp)
      intro snapshot reading
      exact (Phase.reading.inj reading).symm
  | @insert session snapshot draft row reading decided =>
      have owned := h.owner session (by simp [reading])
      refine h.move (fun other _ => h.owner other) (fun _ => owned) (by simp) ?_
      intro new inserted
      obtain rfl := Phase.inserted.inj inserted
      obtain rfl := h.snapshot session snapshot reading
      exact insert_chained decided h.chained
  | @commit session row next inserted rows =>
      have owned := h.owner session (by simp [inserted])
      obtain ⟨own, chained⟩ := h.pending session row inserted
      have alone : ∀ other, other ≠ session → database.phase other = .idle := by
        intro other apart
        by_contra busy
        exact apart (Option.some.inj ((h.owner other busy).symm.trans owned))
      constructor
      · rwa [rows]
      · rwa [rows]
      · intro other busy
        by_cases same : other = session
        · rw [same]
          exact owned
        · simp [move_phase, same, alone other same] at busy
      · intro other snapshot reading
        by_cases same : other = session
        · simp [move_phase, same] at reading
        · simp [move_phase, same, alone other same] at reading
      · intro other pending inserted
        by_cases same : other = session
        · simp [move_phase, same] at inserted
        · simp [move_phase, same, alone other same] at inserted
      · intro anchor given
        rcases h.anchors anchor given with none | ⟨vouched, inside, names⟩
        · exact .inl none
        · exact .inr ⟨vouched, rows ▸ List.mem_append_left _ inside, names⟩
  | @finish session busy =>
      exact h.move (fun other _ => h.owner other) (fun _ => h.owner session busy) (by simp)
        (by simp)
  | @unlock session ended =>
      have owned := h.owner session (by simp [ended])
      refine h.move ?_ (by simp) (by simp) (by simp)
      intro other apart busy
      exact absurd (Option.some.inj ((h.owner other busy).symm.trans owned)) apart
  | anchor taken =>
      refine ⟨h.own, h.chained, h.owner, h.snapshot, h.pending, ?_⟩
      intro anchor given
      rcases List.mem_cons.mp given with rfl | before
      · exact anchorOf_vouches taken h.chained
      · exact h.anchors anchor before

theorem Reachable.sound (h : Reachable org origin database)
    : Sound org origin database := by
  induction h with
  | refl => exact sound_initial
  | tail _ step ih => exact step.sound ih

end PiFabric.Records
