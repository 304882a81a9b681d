import PiFabric.Decisions.Record

/-! Deadlines of stored records, whatever their chain holds: a reader that comes late lands where
one that came in between would have.
-/

namespace PiFabric.Decisions

open JsString

/-- A stored field: a value of its type, or any other one. -/
inductive Field (α : Type) where
  | typed (value : α)
  | other (value : Json)

structure StoredEscalation (H : Type) where
  chain : Field (List H)
  hop : Field ℚ
  hopTimeoutMs : Field Time
  onFinal : Field OnFinal

structure StoredEntry (H : Type) where
  holder : H
  until_ : Time
  reason : Reason
  text : Option JsString
  escalatedBy : Option JsString

/-- A stored record, with holders of any type; `rest` is what a deadline does not look at. -/
structure StoredRecord (R H : Type) where
  rest : R
  holder : H
  deadline : Option Time
  onExpire : Field OnExpire
  defaultOptionId : Option JsString
  escalation : Option (Field (StoredEscalation H))
  history : Option (List (StoredEntry H))
  status : Status
  answer : Option Answer

variable {R H : Type}

structure Ladder (H : Type) where
  chain : List H
  hop : Nat
  hopTimeoutMs : Time
  inChain : hop < chain.length

/-- The hop as an index. -/
def hopIndex (hop : ℚ) : Nat :=
  hop.num.toNat

theorem hopIndex_lt {hop : ℚ} {length : Nat} (whole : hop.isInt = true) (above : 0 ≤ hop)
    (below : hop < length) : hopIndex hop < length := by
  have same : (hop.num : ℚ) = hop := Rat.coe_int_num_of_den_eq_one (by simpa [Rat.isInt] using whole)
  rw [← same] at above below
  have positive : 0 ≤ hop.num := by exact_mod_cast above
  have small : hop.num < length := by exact_mod_cast below
  rw [hopIndex]
  omega

/-- The chain of an escalation where `decisionEscalation` finds it well formed. -/
def StoredEscalation.ladder (escalation : StoredEscalation H) : Option (Ladder H) :=
  match escalation.chain, escalation.hop, escalation.hopTimeoutMs with
  | .typed chain, .typed hop, .typed hopTimeoutMs =>
      if fits : hop.isInt ∧ 0 ≤ hop ∧ hop < chain.length then
        if chain.length ≤ maxEscalationHops ∧ minEscalationHopMs ≤ hopTimeoutMs then
          some ⟨chain, hopIndex hop, hopTimeoutMs, hopIndex_lt fits.1 fits.2.1 fits.2.2⟩
        else none
      else none
  | _, _, _ => none

def Field.is {α : Type} (passes : α → Bool) : Field α → Bool
  | typed value => passes value
  | other _ => false

/-- `decisionEscalation`: the stored escalation, with its chain, where that is well formed. -/
def StoredRecord.escalates (record : StoredRecord R H)
    : Option (StoredEscalation H × Ladder H) :=
  if record.onExpire.is (· = .escalate) then
    match record.escalation with
    | some (.typed escalation) => escalation.ladder.map fun ladder => (escalation, ladder)
    | _ => none
  else none

/-- The variables of the loop of `applyDecisionDeadline`. -/
structure Rung (H : Type) where
  hop : Nat
  holder : H
  deadline : Time
  history : List (StoredEntry H)

def Rung.pass (hopTimeoutMs : Time) (rung : Rung H) (next : H) : Rung H where
  hop := rung.hop + 1
  holder := next
  deadline := rung.deadline + hopTimeoutMs
  history := rung.history ++ [⟨rung.holder, rung.deadline, .expired, none, none⟩]

/-- The loop, over the holders after the present one. -/
def climb (now hopTimeoutMs : Time) : List H → Rung H → Rung H
  | [], rung => rung
  | next :: above, rung =>
      if rung.deadline ≤ now then climb now hopTimeoutMs above (rung.pass hopTimeoutMs next) else rung

/-- `current`: the record where the loop ends. -/
def StoredRecord.onRung (record : StoredRecord R H) (escalation : StoredEscalation H)
    (rung : Rung H) : StoredRecord R H :=
  { record with
    holder := rung.holder
    deadline := some rung.deadline
    escalation := some (.typed { escalation with hop := .typed rung.hop })
    history := if rung.history.isEmpty then record.history else some rung.history }

def StoredRecord.expire (record : StoredRecord R H) (byDefault : Bool) (now : Time)
    : StoredRecord R H :=
  { record with
    status := .expired
    answer :=
      match record.defaultOptionId with
      | some id =>
          if byDefault && !id.isEmpty then
            some ⟨some id, none, lit "deadline", lit "expiry", now⟩
          else record.answer
      | none => record.answer }

def StoredRecord.rung (record : StoredRecord R H) (deadline : Time) (ladder : Ladder H) : Rung H where
  hop := ladder.hop
  holder := record.holder
  deadline
  history := record.history.getD []

def StoredRecord.applyDeadline (record : StoredRecord R H) (now : Time) : StoredRecord R H :=
  match record.status, record.deadline with
  | .opened, some deadline =>
      if now < deadline then record
      else
        match record.escalates with
        | none => record.expire (record.onExpire.is (· = .default)) now
        | some (escalation, ladder) =>
            let rung := climb now ladder.hopTimeoutMs (ladder.chain.drop (ladder.hop + 1))
              (record.rung deadline ladder)
            let current := record.onRung escalation rung
            if now < rung.deadline then current
            else current.expire (escalation.onFinal.is (· = .default)) now
  | _, _ => record

/-- Where the loop ends: after some of the holders, with an entry and a timeout for each. -/
structure Climbed (now hopTimeoutMs : Time) (above : List H) (rung after : Rung H)
    (passed left : List H) : Prop where
  holders : above = passed ++ left
  hop : after.hop = rung.hop + passed.length
  holder : after.holder = passed.getLast?.getD rung.holder
  deadline : after.deadline = rung.deadline + passed.length * hopTimeoutMs
  history : ∃ entries, after.history = rung.history ++ entries ∧ entries.length = passed.length
  stopped : left = [] ∨ now < after.deadline

/-- The loop ends, by induction over the holders; a later reader goes on from there. -/
theorem climb_spec (now hopTimeoutMs : Time) (above : List H) (rung : Rung H)
    : ∃ passed left,
        Climbed now hopTimeoutMs above rung (climb now hopTimeoutMs above rung) passed left
      ∧ ∀ later, now ≤ later →
        climb later hopTimeoutMs above rung
          = climb later hopTimeoutMs left (climb now hopTimeoutMs above rung) := by
  induction above generalizing rung with
  | nil => exact ⟨[], [], ⟨rfl, rfl, rfl, by simp [climb], ⟨[], by simp [climb]⟩, Or.inl rfl⟩,
      fun _ _ => rfl⟩
  | cons next above ih =>
      rw [climb]
      by_cases due : rung.deadline ≤ now
      · obtain ⟨passed, left, reached, onward⟩ := ih (rung.pass hopTimeoutMs next)
        rw [if_pos due]
        obtain ⟨entries, history, count⟩ := reached.history
        refine ⟨next :: passed, left, ⟨?_, ?_, ?_, ?_, ?_, reached.stopped⟩, fun later order => ?_⟩
        · rw [reached.holders, List.cons_append]
        · rw [reached.hop, List.length_cons]
          simp only [Rung.pass]
          omega
        · rw [reached.holder, List.getLast?_cons, Option.getD_some]
          rfl
        · rw [reached.deadline, List.length_cons]
          simp only [Rung.pass]
          push_cast
          ring
        · refine ⟨⟨rung.holder, rung.deadline, .expired, none, none⟩ :: entries, ?_, ?_⟩
          · rw [history, Rung.pass, List.append_assoc, List.singleton_append]
          · rw [List.length_cons, List.length_cons, count]
        · rw [climb, if_pos (due.trans order)]
          exact onward later order
      · rw [if_neg due]
        exact ⟨[], next :: above, ⟨rfl, rfl, rfl, by simp, ⟨[], by simp⟩, Or.inr (not_le.mp due)⟩,
          fun _ _ => rfl⟩

def StoredRecord.untimed (record : StoredRecord R H) : StoredRecord R H :=
  { record with answer := record.answer.map fun answer => { answer with answeredAt := 0 } }

variable {record : StoredRecord R H} {now : Time}

theorem StoredRecord.applyDeadline_of_not_open (resolved : record.status ≠ .opened)
    : record.applyDeadline now = record := by
  unfold StoredRecord.applyDeadline
  split
  · exact absurd ‹_› resolved
  · rfl

theorem StoredRecord.applyDeadline_of_no_deadline (none_ : record.deadline = none)
    : record.applyDeadline now = record := by
  unfold StoredRecord.applyDeadline
  rw [none_]
  split
  · exact absurd ‹_› (by simp)
  · rfl

/-- A record changes nothing before its deadline. -/
theorem StoredRecord.applyDeadline_of_lt {deadline : Time} (due : record.deadline = some deadline)
    (early : now < deadline)
    : record.applyDeadline now = record := by
  unfold StoredRecord.applyDeadline
  rw [due]
  split
  · next _ same =>
      obtain rfl := Option.some.inj same
      exact if_pos early
  · rfl

variable {escalation : StoredEscalation H}

variable {ladder : Ladder H} {rung : Rung H}

/-- The loop of a record: where it ends, within the chain, and that it can be taken up there. -/
structure Loop (record : StoredRecord R H) (ladder : Ladder H) (deadline now : Time)
    (rung : Rung H) (passed left : List H) : Prop where
  climbed : Climbed now ladder.hopTimeoutMs (ladder.chain.drop (ladder.hop + 1))
    (record.rung deadline ladder) rung passed left
  inChain : rung.hop < ladder.chain.length
  grown : record.history.getD [] <+: rung.history
  remaining : ladder.chain.drop (rung.hop + 1) = left
  onward : ∀ later, now ≤ later →
    climb later ladder.hopTimeoutMs (ladder.chain.drop (ladder.hop + 1)) (record.rung deadline ladder)
      = climb later ladder.hopTimeoutMs left rung

/-- The loop of `applyDecisionDeadline`, over the holders after the record's hop. -/
def StoredRecord.loop (record : StoredRecord R H) (ladder : Ladder H) (deadline now : Time) : Rung H :=
  climb now ladder.hopTimeoutMs (ladder.chain.drop (ladder.hop + 1)) (record.rung deadline ladder)

theorem loop_spec (record : StoredRecord R H) (ladder : Ladder H) (deadline now : Time)
    : ∃ passed left,
        Loop record ladder deadline now (record.loop ladder deadline now) passed left := by
  obtain ⟨passed, left, climbed, onward⟩ := climb_spec now ladder.hopTimeoutMs
    (ladder.chain.drop (ladder.hop + 1)) (record.rung deadline ladder)
  have hop : (record.loop ladder deadline now).hop = ladder.hop + passed.length := climbed.hop
  have count := congrArg List.length climbed.holders
  rw [List.length_drop, List.length_append] at count
  have inside := ladder.inChain
  obtain ⟨entries, history, _⟩ := climbed.history
  refine ⟨passed, left, climbed, by omega, ⟨entries, history.symm⟩, ?_, onward⟩
  have later : ladder.hop + passed.length + 1 = ladder.hop + 1 + passed.length := by omega
  rw [hop, later, ← List.drop_drop, climbed.holders, List.drop_left' rfl]

theorem StoredRecord.applyDeadline_of_due {deadline : Time} (open_ : record.status = .opened)
    (due : record.deadline = some deadline) (late : deadline ≤ now)
    : record.applyDeadline now
      = record.escalates.elim (record.expire (record.onExpire.is (· = .default)) now)
          fun known =>
            if now < (record.loop known.2 deadline now).deadline then
              record.onRung known.1 (record.loop known.2 deadline now)
            else
              (record.onRung known.1 (record.loop known.2 deadline now)).expire
                (known.1.onFinal.is (· = .default)) now := by
  unfold StoredRecord.applyDeadline
  rw [open_, due]
  dsimp only
  rw [if_neg (not_lt.mpr late)]
  cases record.escalates <;> rfl

/-- A record moves up its chain, within it, with one history entry for each hop passed; without a
well-formed chain it does not move.
-/
structure Moves (record after : StoredRecord R H) : Prop where
  climbs : ∀ escalation ladder, record.escalates = some (escalation, ladder) →
    ∃ escalation' ladder' entries, after.escalates = some (escalation', ladder')
      ∧ ladder'.chain = ladder.chain ∧ ladder'.hop = ladder.hop + entries.length
      ∧ after.history.getD [] = record.history.getD [] ++ entries
      ∧ after.holder = ((ladder.chain.drop (ladder.hop + 1)).take entries.length).getLast?.getD
          record.holder
  stays : record.escalates = none → after.escalation = record.escalation
    ∧ after.history = record.history ∧ after.holder = record.holder

theorem Moves.refl (record : StoredRecord R H) : Moves record record :=
  ⟨fun escalation ladder known => ⟨escalation, ladder, [], known, rfl, rfl, by simp, rfl⟩,
    fun _ => ⟨rfl, rfl, rfl⟩⟩

/-- An expiry does not move the record. -/
theorem Moves.expire {after : StoredRecord R H} (moves : Moves record after) (byDefault : Bool)
    (now : Time) : Moves record (after.expire byDefault now) :=
  ⟨moves.climbs, moves.stays⟩

/-- What a deadline does not look at. -/
structure Facts where
  id : JsString
  kind : Kind
  title : JsString
  body : Option JsString
  options : Option (List DecisionOption)
  input : InputMode
  raisedBy : RaisedBy
  createdAt : Time

def HistoryEntry.stored (entry : HistoryEntry) : StoredEntry Holder :=
  ⟨entry.holder, entry.until_, entry.reason, entry.text, entry.escalatedBy⟩

def Escalation.stored (escalation : Escalation) : StoredEscalation Holder where
  chain := .typed escalation.chain
  hop := .typed escalation.hop
  hopTimeoutMs := .typed escalation.hopTimeoutMs
  onFinal := .typed escalation.onFinal

def Record.stored (record : Record) : StoredRecord Facts Holder where
  rest := ⟨record.id, record.kind, record.title, record.body, record.options, record.input,
    record.raisedBy, record.createdAt⟩
  holder := record.holder
  deadline := record.deadline
  onExpire := .typed record.onExpire
  defaultOptionId := record.defaultOptionId
  escalation := record.escalation.map fun escalation => .typed escalation.stored
  history := if record.history.isEmpty then none else some (record.history.map HistoryEntry.stored)
  status := record.status
  answer := record.answer

def Position.stored (position : Position) : Rung Holder where
  hop := position.hop
  holder := position.holder
  deadline := position.deadline
  history := position.history.map HistoryEntry.stored

theorem Record.stored_history (record : Record)
    : record.stored.history.getD [] = record.history.map HistoryEntry.stored := by
  unfold Record.stored
  cases record.history <;> rfl

theorem Record.stored_escalates (record : Record)
    : (decisionEscalation record = none → record.stored.escalates = none)
      ∧ ∀ escalation, decisionEscalation record = some escalation → ∃ inChain,
        record.stored.escalates = some (escalation.stored,
          ⟨escalation.chain, escalation.hop, escalation.hopTimeoutMs, inChain⟩) := by
  unfold decisionEscalation StoredRecord.escalates
  by_cases escalates : record.onExpire = .escalate
  swap
  · have other : (record.stored.onExpire.is (· = .escalate)) = false := by
      simpa [Record.stored, Field.is] using escalates
    rw [if_neg escalates, other, if_neg Bool.false_ne_true]
    exact ⟨fun _ => rfl, fun _ none_ => by cases none_⟩
  have same : (record.stored.onExpire.is (· = .escalate)) = true := by
    simpa [Record.stored, Field.is] using escalates
  rw [if_pos escalates, same, if_pos rfl]
  cases held : record.escalation with
  | none =>
      simp [Record.stored, held]
  | some escalation =>
      have whole : (escalation.hop : ℚ).isInt = true := by simp [Rat.isInt]
      have index : hopIndex (escalation.hop : ℚ) = escalation.hop := by simp [hopIndex]
      simp only [Record.stored, held, Option.map_some, StoredEscalation.ladder, Escalation.stored,
        whole, Nat.cast_nonneg, Nat.cast_lt, true_and, index]
      by_cases inside : escalation.hop < escalation.chain.length
      swap
      · simp [Option.filter, inside]
      by_cases bounds : escalation.chain.length ≤ maxEscalationHops
          ∧ minEscalationHopMs ≤ escalation.hopTimeoutMs
      · have some_ : 0 < escalation.chain.length := by omega
        simp [Option.filter, inside, bounds, some_]
      · rw [not_and_or] at bounds
        rcases bounds with long | short
        · simp [Option.filter, long, inside]
        · simp [Option.filter, short, inside]

/-- The loop runs alike on a stored record, by induction over the holders. -/
theorem stored_elapse (now hopTimeoutMs : Time) (above : List Holder) (position : Position)
    : (elapse now hopTimeoutMs above position).stored
      = climb now hopTimeoutMs above position.stored := by
  induction above generalizing position with
  | nil => rfl
  | cons next above ih =>
      rw [elapse, climb]
      have pass : (position.expire next hopTimeoutMs).stored
          = position.stored.pass hopTimeoutMs next := by
        simp [Position.expire, Position.stored, Rung.pass, HistoryEntry.stored]
      by_cases due : position.deadline ≤ now
      · rw [if_pos due, ih, pass]
        exact (if_pos due).symm
      · rw [if_neg due]
        exact (if_neg due).symm

theorem stored_atPosition {record : Record} {escalation : Escalation} {position : Position}
    (grown : record.stored.history.getD [] <+: position.stored.history)
    : (atPosition record escalation position).stored
      = record.stored.onRung escalation.stored position.stored := by
  obtain ⟨hop, holder, deadline, history⟩ := position
  cases history with
  | nil =>
      have none_ : record.history = [] := by
        rw [record.stored_history] at grown
        simpa using List.prefix_nil.mp grown
      simp [atPosition, Record.stored, StoredRecord.onRung, Position.stored, none_,
        Escalation.stored]
  | cons => rfl

theorem stored_expired {record : Record} {byDefault : Bool}
    (named : record.defaultOptionId ≠ some [])
    : (expired record byDefault now).stored = record.stored.expire byDefault now := by
  unfold expired StoredRecord.expire Record.stored
  cases option : record.defaultOptionId with
  | none => simp
  | some id =>
      cases id with
      | nil => exact absurd option named
      | cons => simp

/-- The deadline of a record applies to it alike where it is stored; an option's name is not empty.
-/
theorem stored_applyDecisionDeadline (record : Record) (now : Time)
    (named : record.defaultOptionId ≠ some [])
    : (applyDecisionDeadline record now).stored = record.stored.applyDeadline now := by
  have status : record.stored.status = record.status := rfl
  have deadlines : record.stored.deadline = record.deadline := rfl
  unfold applyDecisionDeadline
  by_cases open_ : record.status = .opened
  swap
  · rw [StoredRecord.applyDeadline_of_not_open (status ▸ open_)]
    split
    · exact absurd ‹_› open_
    · rfl
  cases due : record.deadline with
  | none =>
      rw [StoredRecord.applyDeadline_of_no_deadline (deadlines.trans due), open_]
  | some deadline =>
      rw [open_]
      dsimp only
      by_cases early : now < deadline
      · rw [if_pos early, StoredRecord.applyDeadline_of_lt (deadlines.trans due) early]
      rw [if_neg early, StoredRecord.applyDeadline_of_due (status.trans open_) (deadlines.trans due)
        (not_lt.mp early)]
      obtain ⟨flat, climbs⟩ := record.stored_escalates
      cases chain : decisionEscalation record with
      | none =>
          rw [flat chain, Option.elim_none]
          exact stored_expired named
      | some escalation =>
          obtain ⟨inChain, known⟩ := climbs escalation chain
          have start : ({ hop := escalation.hop, holder := record.holder, deadline
                          history := record.history } : Position).stored
              = record.stored.rung deadline
                ⟨escalation.chain, escalation.hop, escalation.hopTimeoutMs, inChain⟩ := by
            simp [Position.stored, StoredRecord.rung, record.stored_history]
            rfl
          have loop := stored_elapse now escalation.hopTimeoutMs
            (escalation.chain.drop (escalation.hop + 1)) ⟨escalation.hop, record.holder, deadline,
              record.history⟩
          rw [start] at loop
          obtain ⟨_, _, ran⟩ := loop_spec record.stored
            ⟨escalation.chain, escalation.hop, escalation.hopTimeoutMs, inChain⟩ deadline now
          rw [known, Option.elim_some]
          dsimp only
          rw [StoredRecord.loop, ← loop]
          have grown := ran.grown
          rw [StoredRecord.loop, ← loop] at grown
          have waits : (elapse now escalation.hopTimeoutMs (escalation.chain.drop (escalation.hop + 1))
              ⟨escalation.hop, record.holder, deadline, record.history⟩).stored.deadline
            = (elapse now escalation.hopTimeoutMs (escalation.chain.drop (escalation.hop + 1))
              ⟨escalation.hop, record.holder, deadline, record.history⟩).deadline := rfl
          rw [waits]
          split
          · exact stored_atPosition grown
          · rw [stored_expired (by exact named), stored_atPosition grown]
            rfl

end PiFabric.Decisions
