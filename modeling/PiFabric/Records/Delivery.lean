import PiFabric.Records.Inbox

/-! What the inbox promises: the cursor does not pass a record that was found for the consumer
and that its session does not hold. A call that still works under other names breaks it.
-/

namespace PiFabric.Records

open JsString HashChain

namespace Inbox

variable {C : Type} [DecidableEq C] {reading : Reading} {org origin consumer : JsString}
  {inbox : Inbox C}

omit [DecidableEq C] in
theorem sound_initial : (initial : Inbox C).Sound reading consumer org origin where
  own := by simp [Own, initial, emptyTable]
  chained := trivial
  unopened := fun _ _ => rfl
  state := fun _ stored => absurd stored (by simp [initial])
  calls := fun _ => trivial

theorem Reachable.sound (h : inbox.Reachable reading org origin consumer)
    : inbox.Sound reading consumer org origin := by
  induction h with
  | refl => exact sound_initial
  | tail _ step ih => exact step.sound ih

/-- Wherever two pages pass over one record and the result of the first was saved, a record
addressed under the names of the second was addressed under those of the first.
-/
def Agreed (reading : Reading) (consumer : JsString) (inbox : Inbox C) : Prop :=
  ∀ passed ∈ inbox.saved, ∀ found ∈ inbox.spans, ∀ row ∈ inbox.table.rows,
    passed.Passes row → found.Passes row →
    Addressed reading consumer found.names row → Addressed reading consumer passed.names row

omit [DecidableEq C] in
/-- A settled cursor is above only such found records as the session holds or the ids name. -/
theorem Settled.found {through : Nat} {ids : List JsString}
    (h : inbox.Settled reading consumer through ids) (agreed : inbox.Agreed reading consumer)
    {row : Row} (inside : row ∈ inbox.table.rows) (started : inbox.start < row.seq)
    {found : Span} (read : found ∈ inbox.spans) (passes : found.Passes row)
    (addressed : Addressed reading consumer found.names row) (below : row.seq ≤ through)
    : inbox.Holds [row.id] ∨ row.id ∈ ids := by
  obtain ⟨span, kept, passed, named⟩ := h.passed row inside started below
  exact named (agreed span kept found read row inside passed passes addressed)

omit [DecidableEq C] in
theorem Batch.replays {ids : List JsString} (h : inbox.Batch reading ids)
    (sound : inbox.Sound reading consumer org origin) {row : Row}
    (inside : row ∈ inbox.table.rows) (named : row.id ∈ ids) {records : List Row}
    (answered : byIds reading org origin ids inbox.table = some records)
    : row ∈ records := by
  obtain ⟨batch, rfl, held, sorted, fits⟩ := h
  rw [byIds_batch sound.own sound.chained held sorted fits answered]
  obtain ⟨other, member, same⟩ := List.mem_map.mp named
  exact List.inj_on_of_nodup_map inbox.table.ids (held other member) inside same ▸ member

end Inbox

/-- In a run whose pages agree, a record that some page found for the consumer stays above the
cursor until the session holds it: the pending batch that reaches it brings it, and a page from
the cursor that passes over it under a name it is addressed to brings it.
-/
theorem inbox_keeps_records {C : Type} [DecidableEq C] {reading : Reading}
    {org origin consumer : JsString} {inbox : Inbox C}
    (reachable : inbox.Reachable reading org origin consumer)
    (agreed : inbox.Agreed reading consumer)
    : ∀ state, inbox.consumer = some state → ∀ row ∈ inbox.table.rows, inbox.start < row.seq →
        ∀ found ∈ inbox.spans, found.Passes row →
        Addressed reading consumer found.names row → ¬inbox.Holds [row.id] →
        state.after < row.seq
        ∧ (∀ pending, state.pending = some pending → row.seq ≤ pending.through →
            row.id ∈ pending.ids
            ∧ ∀ records, byIds reading org origin pending.ids inbox.table = some records →
              row ∈ records)
        ∧ ∀ aliases limit result,
            page reading org origin (pageArgs origin consumer aliases state.after limit)
              inbox.table = some result →
            Addressed reading consumer (namesOf consumer aliases) row →
            row.seq ≤ result.next → row ∈ result.records := by
  intro state stored row inside started found read passes addressed unheld
  have sound := reachable.sound
  have settled := sound.state state stored
  have above : state.after < row.seq := by
    by_contra below
    rcases settled.cursor.found agreed inside started read passes addressed
      (Nat.not_lt.mp below) with held | impossible
    · exact unheld held
    · exact absurd impossible (by simp)
  refine ⟨above, ?_, ?_⟩
  · intro pending batch reaches
    obtain ⟨through, replays⟩ := settled.pending pending batch
    have named : row.id ∈ pending.ids :=
      (through.found agreed inside started read passes addressed reaches).resolve_left unheld
    exact ⟨named, fun records answered => replays.replays sound inside named answered⟩
  · intro aliases limit result answered mine reaches
    have unsaved := sound.unsaved answered settled.cursor
    exact unsaved.complete row inside ⟨above, reaches⟩ mine

/-- `data->>'to'` of a record whose recipient is a string, and envelopes of 241 bytes. -/
def askReading : Reading where
  «to» := fun row => (Json.parse row.data).bind fun data => Json.text? (Json.field? "to" data)
  bytes := fun _ => 241

def askDraft : Draft where
  id := lit "00000000-0000-4000-8000-000000000002"
  ref := lit "owner/repo#1"
  kind := lit "ask"
  author := lit "agent"
  authorName := none
  createdAt := lit "1767225600.000000"
  text := some (lit "When?")
  data := lit "\x7b\"to\": \"helper\"\x7d"
  supersedes := none
  key := lit "key"
  payloadHash := lit "payload"

def askRow : Row where
  id := askDraft.id
  org := lit "org"
  origin := lit "node"
  seq := 1
  ref := askDraft.ref
  kind := askDraft.kind
  author := askDraft.author
  authorName := none
  createdAt := askDraft.createdAt
  text := askDraft.text
  data := askDraft.data
  supersedes := none
  key := askDraft.key
  payloadHash := askDraft.payloadHash
  prevHash := none

def askTable : Table where
  rows := [askRow]
  ids := List.nodup_singleton _
  positive := by simp [askRow]
  few := by decide

/-- The page of a root that is not yet, or already, called `helper`. -/
def askPage (records : List Row) : Page where
  records := records
  next := 1
  frontier := 1
  origin := lit "node"

theorem page_before_rename
    : page askReading (lit "org") (lit "node") (pageArgs (lit "node") (lit "root") [] 0 20)
        askTable
      = some (askPage []) := by
  decide +kernel

theorem page_after_rename
    : page askReading (lit "org") (lit "node")
        (pageArgs (lit "node") (lit "root") [lit "helper"] 0 20) askTable
      = some (askPage [askRow]) := by
  decide +kernel

theorem append_ask : decideAppend (lit "org") (lit "node") emptyTable askDraft = .insert askRow := by
  decide +kernel

theorem addressed_ask
    : Addressed askReading (lit "root") (namesOf (lit "root") [lit "helper"]) askRow :=
  ⟨⟨lit "helper", by decide +kernel, by decide +kernel⟩, by decide⟩

/-- Witness: an ask is read and pending, and its message has not reached the session. -/
theorem inbox_keeps_records_ask
    : ∃ (inbox : Inbox Unit) (pending : Pending),
        inbox.Reachable askReading (lit "org") (lit "node") (lit "root")
        ∧ inbox.consumer = some { after := 0, pending := some pending }
        ∧ 0 < askRow.seq ∧ askRow.id ∈ pending.ids := by
  have run := ((((Relation.ReflTransGen.refl.tail
    (@Inbox.Step.first Unit _ askReading (lit "org") (lit "node") (lit "root") .initial ()
      rfl rfl)).tail
    (@Inbox.Step.append Unit _ askReading (lit "org") (lit "node") (lit "root") _ askDraft askRow
      askTable append_ask rfl)).tail
    (@Inbox.Step.resume Unit _ askReading (lit "org") (lit "node") (lit "root") _ () _ false
      rfl (by simp))).tail
    (@Inbox.Step.page Unit _ askReading (lit "org") (lit "node") (lit "root") _ () 0 20
      [lit "helper"] _ rfl page_after_rename)).tail
    (@Inbox.Step.deliver Unit _ askReading (lit "org") (lit "node") (lit "root") _ () _ _ rfl)
  refine ⟨_, { through := 1, ids := [askRow.id] }, run, rfl, ?_⟩
  have kept := inbox_keeps_records run
    (by
      intro passed saved found read row _ _ _ addressed
      rw [List.mem_singleton.mp saved]
      rwa [List.mem_singleton.mp read] at addressed)
    _ rfl askRow (List.mem_singleton_self _) (Nat.zero_lt_one) _ (List.mem_singleton_self _)
    ⟨Nat.zero_lt_one, le_refl _⟩ addressed_ask
    (fun held => by obtain ⟨message, none, -⟩ := held; exact absurd none (by simp [Inbox.deliver, Inbox.save, Inbox.move, Inbox.initial]))
  exact ⟨kept.1, (kept.2.1 _ rfl (le_refl _)).1⟩

/-- A call reads a page that does not find the ask, the root is renamed, another call finds the
ask and leaves it pending, and then the first call saves its cursor: the ask is lost.
-/
theorem renamed_root_loses_ask
    : ∃ inbox : Inbox Bool,
        inbox.Reachable askReading (lit "org") (lit "node") (lit "root")
        ∧ inbox.consumer = some { after := 1, pending := none }
        ∧ askRow ∈ inbox.table.rows ∧ inbox.start < askRow.seq ∧ askRow.seq ≤ 1
        ∧ (∃ found ∈ inbox.spans, found.Passes askRow
          ∧ Addressed askReading (lit "root") found.names askRow)
        ∧ ¬inbox.Holds [askRow.id] := by
  have run := (((((((Relation.ReflTransGen.refl.tail
    (@Inbox.Step.first Bool _ askReading (lit "org") (lit "node") (lit "root") .initial false
      rfl rfl)).tail
    (@Inbox.Step.reopen Bool _ askReading (lit "org") (lit "node") (lit "root") _ true _
      rfl rfl)).tail
    (@Inbox.Step.append Bool _ askReading (lit "org") (lit "node") (lit "root") _ askDraft askRow
      askTable append_ask rfl)).tail
    (@Inbox.Step.resume Bool _ askReading (lit "org") (lit "node") (lit "root") _ false _ false
      rfl (by simp))).tail
    (@Inbox.Step.page Bool _ askReading (lit "org") (lit "node") (lit "root") _ false 0 20
      [] _ rfl page_before_rename)).tail
    (@Inbox.Step.resume Bool _ askReading (lit "org") (lit "node") (lit "root") _ true _ false
      rfl (by simp))).tail
    (@Inbox.Step.page Bool _ askReading (lit "org") (lit "node") (lit "root") _ true 0 20
      [lit "helper"] _ rfl page_after_rename)).tail
    (@Inbox.Step.deliver Bool _ askReading (lit "org") (lit "node") (lit "root") _ true _ _ rfl)
  have run := run.tail
    (@Inbox.Step.skip Bool _ askReading (lit "org") (lit "node") (lit "root") _ false _ rfl)
  refine ⟨_, run, rfl, List.mem_singleton_self _, Nat.zero_lt_one, le_refl _,
    ⟨_, List.mem_cons_self .., ⟨Nat.zero_lt_one, le_refl _⟩, addressed_ask⟩, ?_⟩
  rintro ⟨message, none, -⟩
  exact absurd none (by simp [Inbox.skip, Inbox.deliver, Inbox.save, Inbox.move, Inbox.initial])

end PiFabric.Records
