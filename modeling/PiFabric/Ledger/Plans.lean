import PiFabric.Foundation.Outcome
import PiFabric.Ledger.Operations

/-! What an operation can decide, said once: every line it writes and every answer it gives.
From it, that an update only moves a record forward.
-/

namespace PiFabric.Ledger

open JsString LineLog Memory Outcome
open Json (Members)

/-- The properties an update sets on a record. -/
inductive Change (record : Members) : List (String × Json) → Prop
  | uncertain (state : stateOf record = some .claimed)
      : Change record [stateChange .uncertain]
  | sent {envelope sequence : Option Json}
      (state : stateOf record = some .claimed ∨ stateOf record = some .uncertain)
      (once : (record.get? "envelopeId").isSome = true → envelope = none)
      : Change record ([stateChange .sent] ++ (envelope.toList.map fun id => ("envelopeId", id))
        ++ sequence.toList.map fun sequence => ("destinationSequence", sequence))
  /-- The destination id of a record whose ACK came first. -/
  | late {id : Json} (absent : record.get? "envelopeId" = none)
      : Change record [("envelopeId", id)]
  | acked {ack : Json} (absent : record.get? "ack" = none)
      : Change record [stateChange .acked, ("ack", ack)]
  | ackForwarded (present : (record.get? "ack").isSome = true)
      : Change record [stateChange .ackForwarded]

def Op.commandId? : Op → Option JsString
  | .claim input => some (commandIdOf input)
  | .markUncertain commandId => some commandId
  | .markSent commandId _ _ => some commandId
  | .settle commandId _ => some commandId
  | .markAckForwarded commandId => some commandId
  | .markSeen .. => none

section Plans

variable {T : Type} [LinearOrder T]

/-- The lines an operation can write. -/
inductive Written (num : Numbers T) (now : JsNumber) (memory : Memory) : Op → Line → Prop
  | claimed {input : Members} (absent : memory.get num now (commandIdOf input) = none)
      : Written num now memory (.claim input) (.cmd (claimRecord num now input))
  | updated {op : Op} {commandId : JsString} {record : Members}
      {changes : List (String × Json)} (about : op.commandId? = some commandId)
      (found : memory.get num now commandId = some record) (change : Change record changes)
      (update : ∀ input, op ≠ .claim input)
      : Written num now memory op (.cmd (record.assign changes))
  | seen {dir : Direction} {eventId : JsString} {destinationId destinationSequence : Option Json}
      {r : Members}
      : Written num now memory (.markSeen dir eventId destinationId destinationSequence) (.seen r)

/-- The answers an operation can give without writing. -/
inductive Answered (num : Numbers T) (now : JsNumber) (memory : Memory) : Op → Reply → Prop
  | repeated {input existing : Members}
      (found : memory.get num now (commandIdOf input) = some existing)
      : Answered num now memory (.claim input)
        (.claimed (repeatedStatus existing input) existing)
  | unchanged {op : Op} {commandId : JsString} {record : Members}
      (about : op.commandId? = some commandId)
      (found : memory.get num now commandId = some record)
      : Answered num now memory op (.record record)
  | seen {dir : Direction} {eventId : JsString} {destinationId destinationSequence : Option Json}
      {existing : Members}
      : Answered num now memory (.markSeen dir eventId destinationId destinationSequence)
        (.record existing)

/-- A decision as one of its kinds; a written line has passed its shape check. -/
inductive Decided (num : Numbers T) (now : JsNumber) (memory : Memory) (op : Op) : Plan → Prop
  | write {line : Line} (valid : line.valid = true) (written : Written num now memory op line)
      : Decided num now memory op (.write line)
  | answer {reply : Reply} (answered : Answered num now memory op reply)
      : Decided num now memory op (.answer reply)

variable {num : Numbers T} {now : JsNumber} {memory : Memory}

theorem require_bind_eq_ok {condition : Bool} {reason : LedgerError} {α : Type}
    {next : Unit → Except LedgerError α} {result : α}
    : require condition reason >>= next = .ok result
      ↔ condition = true ∧ next () = .ok result := by
  cases condition <;> simp [require, bind, Except.bind]

variable {commandId : JsString} {decision : Plan}

variable {op : Op}

theorem update_decided {record : Members} {changes : List (String × Json)}
    (about : op.commandId? = some commandId) (found : memory.get num now commandId = some record)
    (change : Change record changes) (other : ∀ input, op ≠ .claim input)
    (h : update record changes = .ok decision)
    : Decided num now memory op decision := by
  obtain ⟨valid, h⟩ := require_bind_eq_ok.mp h
  rw [← Except.ok.inj h]
  exact .write valid (.updated about found change other)

theorem requireLive_eq_ok {record : Members}
    : requireLive num now memory commandId = .ok record
      ↔ memory.get num now commandId = some record := by
  unfold requireLive
  split <;> simp_all

theorem claim_decided {input : Members} (h : claim num now memory input = .ok decision)
    : Decided num now memory (.claim input) decision := by
  obtain ⟨-, -, h⟩ := bind_eq_ok.mp h
  split at h
  · next existing found =>
      rw [← Except.ok.inj h]
      exact .answer (.repeated found)
  · next absent =>
      obtain ⟨-, h⟩ := require_bind_eq_ok.mp h
      obtain ⟨valid, h⟩ := require_bind_eq_ok.mp h
      rw [← Except.ok.inj h]
      exact .write valid (.claimed absent)

theorem markUncertain_decided (h : markUncertain num now memory commandId = .ok decision)
    : Decided num now memory (.markUncertain commandId) decision := by
  obtain ⟨record, found, h⟩ := bind_eq_ok.mp h
  have found := requireLive_eq_ok.mp found
  split at h
  · next state => exact update_decided rfl found (.uncertain state) (by simp) h
  · rw [← Except.ok.inj h]
    exact .answer (.unchanged rfl found)

theorem markSent_decided {envelopeId sequence : Option Json}
    (h : markSent num now memory commandId envelopeId sequence = .ok decision)
    : Decided num now memory (.markSent commandId envelopeId sequence) decision := by
  obtain ⟨record, found, h⟩ := bind_eq_ok.mp h
  have found := requireLive_eq_ok.mp found
  obtain ⟨-, h⟩ := require_bind_eq_ok.mp h
  obtain ⟨-, h⟩ := require_bind_eq_ok.mp h
  obtain ⟨-, h⟩ := require_bind_eq_ok.mp h
  split at h
  · split at h
    · rw [← Except.ok.inj h]
      exact .answer (.unchanged rfl found)
    · next late =>
        simp only [Bool.or_eq_true, not_or, Option.isNone_iff_eq_none, Bool.not_eq_true,
          Option.isSome_eq_false_iff] at late
        obtain ⟨id, rfl⟩ := Option.ne_none_iff_exists'.mp late.2
        exact update_decided rfl found (.late late.1) (by simp) h
  · next state =>
      have state : stateOf record = some .claimed ∨ stateOf record = some .uncertain := by
        by_contra neither
        exact state (not_or.mp neither)
      cases recorded : record.get? "envelopeId" with
      | some old =>
          simp only [recorded, Option.isNone_some, Bool.false_eq_true, if_false] at h
          exact update_decided rfl found (.sent state fun _ => rfl) (by simp) h
      | none =>
          simp only [recorded, Option.isNone_none, if_true] at h
          exact update_decided rfl found (.sent state (by simp [recorded])) (by simp) h

theorem settle_decided {ack : Json} (h : settle num now memory commandId ack = .ok decision)
    : Decided num now memory (.settle commandId ack) decision := by
  obtain ⟨record, found, h⟩ := bind_eq_ok.mp h
  have found := requireLive_eq_ok.mp found
  obtain ⟨-, h⟩ := require_bind_eq_ok.mp h
  split at h
  · rw [← Except.ok.inj h]
    exact .answer (.unchanged rfl found)
  · next absent =>
      simp only [Bool.not_eq_true, Option.isSome_eq_false_iff, Option.isNone_iff_eq_none] at absent
      exact update_decided rfl found (.acked absent) (by simp) h

theorem markAckForwarded_decided (h : markAckForwarded num now memory commandId = .ok decision)
    : Decided num now memory (.markAckForwarded commandId) decision := by
  obtain ⟨record, found, h⟩ := bind_eq_ok.mp h
  have found := requireLive_eq_ok.mp found
  obtain ⟨present, h⟩ := require_bind_eq_ok.mp h
  split at h
  · rw [← Except.ok.inj h]
    exact .answer (.unchanged rfl found)
  · exact update_decided rfl found (.ackForwarded present) (by simp) h

theorem markSeen_decided {dir : Direction} {eventId : JsString}
    {destinationId destinationSequence : Option Json}
    (h : markSeen num now memory dir eventId destinationId destinationSequence = .ok decision)
    : Decided num now memory (.markSeen dir eventId destinationId destinationSequence)
        decision := by
  unfold markSeen at h
  split at h
  · rw [← Except.ok.inj h]
    exact .answer .seen
  · obtain ⟨valid, h⟩ := require_bind_eq_ok.mp h
    rw [← Except.ok.inj h]
    exact .write valid .seen

/-- Everything an operation can decide, by the operations. -/
theorem plan_decided (h : plan num now memory op = .ok decision)
    : Decided num now memory op decision := by
  cases op with
  | claim input => exact claim_decided h
  | markUncertain commandId => exact markUncertain_decided h
  | markSent commandId envelopeId sequence => exact markSent_decided h
  | settle commandId ack => exact settle_decided h
  | markAckForwarded commandId => exact markAckForwarded_decided h
  | markSeen dir eventId destinationId destinationSequence => exact markSeen_decided h

theorem plan_write_valid {line : Line} (h : plan num now memory op = .ok (.write line))
    : line.valid = true := by
  cases plan_decided h with
  | write valid written => exact valid

end Plans

def rankOf (r : Members) : Nat :=
  match stateOf r with
  | some state => state.rank
  | none => 0

def fixedFields : List String :=
  ["commandId", "direction", "sourceMachine", "requesterId", "originalCommandId", "replyTo",
    "targetId", "operation", "bodyDigest", "claimedAt", "expiresAt"]

def changedFields : List String :=
  ["state", "envelopeId", "ack", "destinationSequence"]

/-- `later` is `earlier` moved forward: its state is no lower, what was recorded once stands,
and what the claim fixed is the same.
-/
structure Forward (earlier later : Members) : Prop where
  rank : rankOf earlier ≤ rankOf later
  ack : (earlier.get? "ack").isSome = true → later.get? "ack" = earlier.get? "ack"
  envelope : (earlier.get? "envelopeId").isSome = true →
    later.get? "envelopeId" = earlier.get? "envelopeId"
  fixed : ∀ field ∈ fixedFields, later.get? field = earlier.get? field

theorem Forward.refl (r : Members) : Forward r r where
  rank := le_refl _
  ack := fun _ => rfl
  envelope := fun _ => rfl
  fixed := fun _ _ => rfl

theorem Forward.trans {first second third : Members} (h₁ : Forward first second)
    (h₂ : Forward second third)
    : Forward first third where
  rank := h₁.rank.trans h₂.rank
  ack := by
    intro present
    have same := h₁.ack present
    rw [← same] at present ⊢
    exact h₂.ack present
  envelope := by
    intro present
    have same := h₁.envelope present
    rw [← same] at present ⊢
    exact h₂.envelope present
  fixed := fun field member => (h₂.fixed field member).trans (h₁.fixed field member)

/-- A change that names only properties updates may set leaves the fixed ones. -/
theorem get?_fixed {r : Members} {changes : List (String × Json)}
    (named : ∀ change ∈ changes, change.1 ∈ changedFields) (field : String)
    (member : field ∈ fixedFields)
    : (r.assign changes).get? field = r.get? field := by
  apply Members.get?_assign_other
  rw [List.all_eq_true]
  intro change inside
  have apart : fixedFields.all (fun fixed => changedFields.all fun changed =>
      lit fixed ≠ lit changed) = true := by
    decide
  exact List.all_eq_true.mp (List.all_eq_true.mp apart field member) _ (named change inside)

end PiFabric.Ledger

/-! Runs of the ledger: mutations, compactions at any point, and deaths followed by a reopen.
Whatever happens, the file holds complete valid lines whose replay is the memory, so no reopen
is refused.
-/

namespace PiFabric.Ledger

open JsString LineLog Memory Outcome
open Json (Members)

variable {T : Type} [LinearOrder T]

inductive Event where
  /-- A mutation whose promise resolved. -/
  | resolved (now : JsNumber) (op : Op) (reply : Reply)
  /-- A mutation that threw. -/
  | rejected (now : JsNumber) (op : Op) (reason : LedgerError)
  | compacted (now : JsNumber)
  /-- A death at `died` and a reopen at `now`. -/
  | reopened (died now : JsNumber)

def Event.readings : Event → List JsNumber
  | resolved now _ _ => [now]
  | rejected now _ _ => [now]
  | compacted now => [now]
  | reopened died now => [died, now]

/-- The ledger as far as a mutation in flight has made it durable. -/
inductive InFlight (settings : Settings T) (now : JsNumber) (ledger : FileLedger)
    : FileLedger → Prop
  | idle : InFlight settings now ledger ledger
  | written {op : Op} {line : Line} {bytes : Bytes}
      (decided : plan settings.num now ledger.memory op = .ok (.write line))
      (encoded : encode settings.sha256Hex line = some bytes)
      : InFlight settings now ledger (appended line bytes ledger)

/-- What a death leaves: the file, the ledger it had reached, and whether a compaction of that
ledger was renamed into place.
-/
inductive Death (settings : Settings T) (now : JsNumber) (ledger : FileLedger)
    : Bytes → FileLedger → Bool → Prop
  /-- Between writes, or with a compaction that was not yet renamed. -/
  | between {reached : FileLedger} (inFlight : InFlight settings now ledger reached)
      : Death settings now ledger reached.file reached false
  /-- Within an append, some of whose bytes were written. -/
  | torn {op : Op} {line : Line} {bytes : Bytes} {count : Nat}
      (decided : plan settings.num now ledger.memory op = .ok (.write line))
      (encoded : encode settings.sha256Hex line = some bytes) (part : count < bytes.length)
      : Death settings now ledger (ledger.file ++ bytes.take count) ledger false
  /-- After the rename of a compaction. -/
  | renamed {reached : FileLedger} (inFlight : InFlight settings now ledger reached)
      : Death settings now ledger (compact settings now reached).file reached true

def held (settings : Settings T) (now : JsNumber) (reached : FileLedger) (renamed : Bool)
    : FileLedger :=
  if renamed then compact settings now reached else reached

inductive Step (settings : Settings T) : FileLedger → Event → FileLedger → Prop
  | resolve {now : JsNumber} {op : Op} {reply : Reply} {ledger next : FileLedger}
      (call : perform settings now op ledger = .ok (reply, next))
      : Step settings ledger (.resolved now op reply) next
  | reject {now : JsNumber} {op : Op} {reason : LedgerError} {ledger : FileLedger}
      (call : perform settings now op ledger = .error reason)
      : Step settings ledger (.rejected now op reason) ledger
  | compact {now : JsNumber} {ledger : FileLedger}
      : Step settings ledger (.compacted now) (compact settings now ledger)
  | reopen {died now : JsNumber} {file : Bytes} {ledger reached next : FileLedger}
      {renamed : Bool} (death : Death settings died ledger file reached renamed)
      (opened : load settings now file = .ok next)
      : Step settings ledger (.reopened died now) next

/-- A run with the events it went through. -/
inductive Run (settings : Settings T) : FileLedger → List Event → FileLedger → Prop
  | refl {ledger : FileLedger} : Run settings ledger [] ledger
  | step {first middle last : FileLedger} {event : Event} {events : List Event}
      (head : Step settings first event middle) (tail : Run settings middle events last)
      : Run settings first (event :: events) last

/-- A ledger reached from the opening of an empty directory. -/
def Reachable (settings : Settings T) (ledger : FileLedger) : Prop :=
  ∃ now opened events, load settings now [] = .ok opened ∧ Run settings opened events ledger

/-- A line that encodes and reads back. -/
structure Storable (settings : Settings T) (line : Line) : Prop where
  valid : line.valid = true
  encoded : encode settings.sha256Hex line = some (lineBytes settings.sha256Hex line ++ [newline])

def ledgerOf (settings : Settings T) (lines : List Line) : FileLedger where
  memory := replay lines
  file := join (lines.map (lineBytes settings.sha256Hex))
  lines := lines.length

/-- The file is a sequence of lines that read back, and the memory is their replay. -/
def Stored (settings : Settings T) (ledger : FileLedger) : Prop :=
  ∃ lines, (∀ line ∈ lines, Storable settings line) ∧ ledger = ledgerOf settings lines

variable {settings : Settings T}

variable {ledger : FileLedger}

theorem Stored.sound (h : Stored settings ledger)
    : ledger.memory.Sound := by
  obtain ⟨lines, storable, rfl⟩ := h
  exact sound_replay fun line member => (storable line member).valid

variable {lines : List Line}

theorem appended_ledgerOf {line : Line} {bytes : Bytes}
    (encoded : encode settings.sha256Hex line = some bytes)
    : appended line bytes (ledgerOf settings lines) = ledgerOf settings (lines ++ [line]) := by
  rw [ledgerOf, appended, ledgerOf, encode_eq_some encoded, replay_append_singleton,
    List.map_append, join_append]
  simp

/-- A valid line made durable keeps the file and the memory in step. -/
theorem Stored.appended (h : Stored settings ledger) {line : Line} (valid : line.valid = true)
    {bytes : Bytes} (encoded : encode settings.sha256Hex line = some bytes)
    : Stored settings (appended line bytes ledger) := by
  obtain ⟨lines, storable, rfl⟩ := h
  refine ⟨lines ++ [line], ?_, appended_ledgerOf encoded⟩
  intro other member
  rcases List.mem_append.mp member with old | new
  · exact storable other old
  · rw [List.mem_singleton.mp new]
    exact ⟨valid, encode_eq_some encoded ▸ encoded⟩

theorem encodeAll_storable (storable : ∀ line ∈ lines, Storable settings line)
    : encodeAll settings lines = some (join (lines.map (lineBytes settings.sha256Hex))) := by
  induction lines with
  | nil => rfl
  | cons line rest ih =>
      have others := ih fun other member => storable other (List.mem_cons_of_mem _ member)
      have first := (storable line (List.mem_cons_self ..)).encoded
      obtain ⟨written, all, flat⟩ := Option.map_eq_some_iff.mp others
      simp only [encodeAll, List.mapM_cons, first, all, Option.bind_eq_bind, Option.bind_some,
        Option.pure_def, Option.map_some, List.flatten_cons, flat, List.map_cons, join_cons,
        List.append_assoc]
      rfl

theorem Stored.compact_eq (h : Stored settings ledger) (now : JsNumber)
    : compact settings now ledger
      = ledgerOf settings (ledger.memory.liveLines settings.num now) := by
  obtain ⟨lines, storable, rfl⟩ := h
  have kept : ∀ line ∈ (replay lines).liveLines settings.num now, Storable settings line :=
    fun line member => storable line (mem_of_mem_liveLines member)
  rw [compact, ledgerOf, encodeAll_storable kept]
  rfl

theorem Stored.compact (h : Stored settings ledger) (now : JsNumber)
    : Stored settings (compact settings now ledger) := by
  rw [h.compact_eq]
  obtain ⟨lines, storable, rfl⟩ := h
  exact ⟨_, fun line member => storable line (mem_of_mem_liveLines member), rfl⟩

theorem Stored.compactIfDue (h : Stored settings ledger) (force : Bool) (now : JsNumber)
    : Stored settings (compactIfDue settings force now ledger) := by
  unfold Ledger.compactIfDue
  split
  · exact h.compact now
  · exact h

theorem Stored.held (h : Stored settings ledger) (now : JsNumber) (renamed : Bool)
    : Stored settings (held settings now ledger renamed) := by
  cases renamed with
  | false => exact h
  | true => exact h.compact now

/-- Lines that read back are read in order, by induction over them. -/
theorem foldlM_scanRow (scan : Scan) (storable : ∀ line ∈ lines, Storable settings line)
    (clean : scan.badAt = none) (level : scan.good = scan.offset)
    : (lines.map (lineBytes settings.sha256Hex)).foldlM (scanRow settings) scan = .ok {
        scan with
        lines := scan.lines ++ lines
        offset := scan.offset + (join (lines.map (lineBytes settings.sha256Hex))).length
        good := scan.offset + (join (lines.map (lineBytes settings.sha256Hex))).length
      } := by
  induction lines generalizing scan with
  | nil =>
      cases scan
      simp_all [pure, Except.pure]
  | cons line rest ih =>
      have parse : parseLine settings.sha256Hex (lineBytes settings.sha256Hex line) = some line :=
        parseLine_lineBytes (storable line (List.mem_cons_self ..)).valid
      have step : scanRow settings scan (lineBytes settings.sha256Hex line) = .ok {
          scan with
          lines := scan.lines ++ [line]
          offset := scan.offset + (lineBytes settings.sha256Hex line).length + 1
          good := scan.offset + (lineBytes settings.sha256Hex line).length + 1
        } := by
        simp only [scanRow, parse, clean]
      rw [List.map_cons, List.foldlM_cons, step]
      have others := ih {
          scan with
          lines := scan.lines ++ [line]
          offset := scan.offset + (lineBytes settings.sha256Hex line).length + 1
          good := scan.offset + (lineBytes settings.sha256Hex line).length + 1
        } (fun other member => storable other (List.mem_cons_of_mem _ member)) clean rfl
      refine others.trans ?_
      simp only [List.append_assoc, List.cons_append, List.nil_append, join_cons,
        List.length_append, List.length_cons]
      congr 2 <;> omega

/-- A stored file with an unfinished append opens as the ledger that holds its lines. -/
theorem load_stored (h : Stored settings ledger) {tail : Bytes} (torn : newline ∉ tail)
    (now : JsNumber)
    : load settings now (ledger.file ++ tail)
      = .ok (compactIfDue settings true now ledger) := by
  obtain ⟨lines, storable, rfl⟩ := h
  have clean : ∀ row ∈ lines.map (lineBytes settings.sha256Hex), newline ∉ row := by
    intro row member
    obtain ⟨line, -, rfl⟩ := List.mem_map.mp member
    exact newline_not_mem_lineBytes line
  have parts : split (join (lines.map (lineBytes settings.sha256Hex)) ++ tail)
      = (lines.map (lineBytes settings.sha256Hex), tail) := by
    rw [split_join clean, split_of_not_mem torn]
    simp
  have read := foldlM_scanRow { lines := [], offset := 0, good := 0, bad := 0, badAt := none }
    storable rfl rfl
  simp [load, ledgerOf, parts, read, bind, Except.bind]

end PiFabric.Ledger
