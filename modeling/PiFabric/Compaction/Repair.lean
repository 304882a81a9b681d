import PiFabric.Compaction.Streaming

/-! What the repair makes of a list: every result answers an open call, every call that is replayed
has its result, nothing else changes, and a second repair finds nothing to do.
-/

namespace PiFabric.Compaction

open JsString

def callIds (message : Message) : List JsString :=
  (toolCallsOf message).map ToolCallView.id

def hasResult (messages : List Message) (id : JsString) : Bool :=
  messages.any fun message => isToolResult message && toolCallId message = some id

/-- The first messages of a list, up to a user or an assistant message. -/
def windowOf (messages : List Message) : List Message :=
  messages.takeWhile fun message => !isBoundary message

/-- Whether a result answers a call of the nearest assistant before it, with no user message in
between and no result for that call; the messages before it are given with the nearest first.
-/
def answers (before : List Message) (result : Message) : Bool :=
  match before.find? isBoundary, toolCallId result with
  | some owner, some id =>
      isAssistant owner && (callIds owner).contains id && !hasResult (windowOf before) id
  | _, _ => false

/-- A list without the results that answer nothing: orphans and duplicates. -/
def withoutOrphans (before : List Message) : List Message → List Message
  | [] => []
  | message :: rest =>
      if isToolResult message && !answers before message then
        withoutOrphans (message :: before) rest
      else message :: withoutOrphans (message :: before) rest

def AllAnswer (before : List Message) : List Message → Prop
  | [] => True
  | message :: rest =>
      (isToolResult message = true → answers before message = true)
      ∧ AllAnswer (message :: before) rest

/-- Every call of an assistant that is replayed and not last has a result in its window. -/
def Complete : List Message → Prop
  | [] => True
  | message :: rest =>
      (isAssistant message = true → replaysAssistant message = true → rest ≠ [] →
        ∀ id ∈ callIds message, hasResult (windowOf rest) id = true)
      ∧ Complete rest

inductive WithSynthetics : List Message → List Message → Prop
  | nil : WithSynthetics [] []
  | keep (message : Message) {kept result : List Message} (more : WithSynthetics kept result)
    : WithSynthetics (message :: kept) (message :: result)
  | insert (now : Int) (call : ToolCallView) {kept result : List Message}
      (more : WithSynthetics kept result)
    : WithSynthetics kept (synthetic now call :: result)

variable {messages : List Message}

theorem allAnswer_iff {before : List Message}
    : AllAnswer before messages
      ↔ ∀ earlier result later, messages = earlier ++ result :: later →
          isToolResult result = true → answers (earlier.reverse ++ before) result = true := by
  induction messages generalizing before with
  | nil =>
      refine ⟨fun _ earlier result later split => ?_, fun _ => trivial⟩
      exact absurd split.symm (by simp)
  | cons message rest ih =>
      rw [AllAnswer, ih]
      constructor
      · intro all earlier result later split isResult
        cases earlier with
        | nil =>
            obtain ⟨rfl, rfl⟩ := List.cons.inj split
            exact all.1 isResult
        | cons first earlier =>
            obtain ⟨rfl, tail⟩ := List.cons.inj split
            rw [List.reverse_cons, List.append_assoc]
            exact all.2 earlier result later tail isResult
      · intro all
        refine ⟨fun isResult => all [] message rest rfl isResult, ?_⟩
        intro earlier result later split isResult
        have first := all (message :: earlier) result later (by rw [split]; rfl) isResult
        rwa [List.reverse_cons, List.append_assoc] at first

/-- The open window knows the calls of the nearest assistant that have no result yet. -/
structure Tracks (before : List Message) (window : Option Window) : Prop where
  shut : window = none → ∀ owner, before.find? isBoundary = some owner →
    isAssistant owner = false
  owned : ∀ open', window = some open' → ∃ owner, before.find? isBoundary = some owner
    ∧ isAssistant owner = true
    ∧ ∀ id, open'.calls.has id = true
      ↔ id ∈ callIds owner ∧ hasResult (windowOf before) id = false
  keyed : ∀ open', window = some open' → ∀ entry ∈ open'.calls.entries, entry.1 = entry.2.id

theorem hasResult_cons (message : Message) (messages : List Message) (id : JsString)
    : hasResult (message :: messages) id
      = (isToolResult message && decide (toolCallId message = some id) || hasResult messages id) :=
  List.any_cons

theorem windowOf_cons {message : Message} (inner : isBoundary message = false)
    (messages : List Message)
    : windowOf (message :: messages) = message :: windowOf messages := by
  rw [windowOf, List.takeWhile_cons_of_pos (by rw [inner]; rfl)]
  rfl

theorem windowOf_boundary {message : Message} (boundary : isBoundary message = true)
    (messages : List Message) : windowOf (message :: messages) = [] := by
  rw [windowOf, List.takeWhile_cons_of_neg (by rw [boundary]; exact Bool.false_ne_true)]

namespace Tracks

variable {before : List Message} {window : Option Window} {open' next : Window} {index : Nat}
variable {message : Message}

theorem start : Tracks [] none where
  shut := fun _ _ found => nomatch found
  owned := fun _ same => nomatch same
  keyed := fun _ same => nomatch same

theorem assistant (speaks : isAssistant message = true)
    : Tracks (message :: before) (some (.opened index message)) where
  shut := fun absent => nomatch absent
  owned := by
    intro open' same
    obtain rfl := Option.some.inj same
    have boundary := isBoundary_of_isAssistant speaks
    refine ⟨message, List.find?_cons_of_pos boundary, speaks, fun id => ?_⟩
    rw [windowOf_boundary boundary]
    show
      (JsMap.bindAll ToolCallView.id (fun call => call) .empty (toolCallsOf message)).has id = true
      ↔ _
    rw [JsMap.has_bindAll]
    constructor
    · intro held
      rcases held with none | call
      · cases none
      · exact ⟨call, rfl⟩
    · exact fun held => .inr held.1
  keyed := by
    intro open' same entry member
    obtain rfl := Option.some.inj same
    rcases JsMap.mem_bindAll member with none | ⟨call, _, rfl⟩
    · cases none
    · rfl

theorem user (boundary : isBoundary message = true) (silent : isAssistant message = false)
    : Tracks (message :: before) none where
  shut := by
    intro _ owner found
    rw [List.find?_cons_of_pos boundary] at found
    exact Option.some.inj found ▸ silent
  owned := fun _ same => nomatch same
  keyed := fun _ same => nomatch same

/-- A message that is neither a boundary nor a result changes nothing. -/
theorem other (tracks : Tracks before window) (inner : isBoundary message = false)
    (result : isToolResult message = false) : Tracks (message :: before) window where
  shut := by
    intro absent owner found
    rw [List.find?_cons_of_neg (by rw [inner]; exact Bool.false_ne_true)] at found
    exact tracks.shut absent owner found
  owned := by
    intro open' same
    obtain ⟨owner, found, speaks, calls⟩ := tracks.owned open' same
    refine ⟨owner, ?_, speaks, fun id => ?_⟩
    · rwa [List.find?_cons_of_neg (by rw [inner]; exact Bool.false_ne_true)]
    · rw [calls id, windowOf_cons inner, hasResult_cons, result, Bool.false_and, Bool.false_or]
  keyed := tracks.keyed

theorem answered_cases (answers : answered window index message = some next)
    : ∃ open' id, window = some open' ∧ isToolResult message = true ∧ toolCallId message = some id
      ∧ open'.calls.has id = true
      ∧ next = { open' with calls := open'.calls.delete id, windowEnd := index } := by
  unfold answered at answers
  split at answers
  · next result =>
      obtain ⟨open', same, answer⟩ := Option.bind_eq_some_iff.mp answers
      obtain ⟨id, named, held⟩ := Option.bind_eq_some_iff.mp answer
      split at held
      · next call => exact ⟨open', id, same, result, named, call, (Option.some.inj held).symm⟩
      · cases held
  · cases answers

theorem answer (tracks : Tracks before window) (answers : answered window index message = some next)
    : Tracks (message :: before) (some next) := by
  obtain ⟨open', id, same, result, named, call, rfl⟩ := answered_cases answers
  have inner := not_isBoundary_of_isToolResult result
  obtain ⟨owner, found, speaks, calls⟩ := tracks.owned open' same
  refine ⟨fun absent => (nomatch absent), ?_, ?_⟩
  · intro other same'
    obtain rfl := Option.some.inj same'
    refine ⟨owner, ?_, speaks, fun other => ?_⟩
    · rwa [List.find?_cons_of_neg (by rw [inner]; exact Bool.false_ne_true)]
    · rw [JsMap.has_delete, calls other, windowOf_cons inner, hasResult_cons, result, named,
        Bool.true_and, Bool.or_eq_false_iff, decide_eq_false_iff_not, Option.some.injEq]
      constructor
      · intro held
        exact ⟨held.2.1, fun same => held.1 same.symm, held.2.2⟩
      · intro held
        exact ⟨fun same => held.2.1 same.symm, held.1, held.2.2⟩
  · intro other same' entry member
    obtain rfl := Option.some.inj same'
    exact tracks.keyed open' same entry (List.mem_filter.mp member).1

theorem isSome_answered (tracks : Tracks before window) (result : isToolResult message = true)
    : (answered window index message).isSome = answers before message := by
  rw [answered, if_pos result]
  unfold answers
  cases same : window with
  | none =>
      cases found : before.find? isBoundary with
      | none => rfl
      | some owner =>
          cases toolCallId message with
          | none => rfl
          | some id =>
              dsimp only
              rw [tracks.shut same owner found]
              rfl
  | some open' =>
      obtain ⟨owner, found, speaks, calls⟩ := tracks.owned open' same
      rw [found, Option.bind_some, Window.answer]
      cases named : toolCallId message with
      | none => rfl
      | some id =>
          have call := calls id
          rw [← List.contains_iff_mem] at call
          rw [Option.bind_some]
          dsimp only
          rw [speaks, Bool.true_and]
          cases held : open'.calls.has id with
          | true =>
              obtain ⟨known, fresh⟩ := call.mp held
              rw [known, fresh]
              rfl
          | false =>
              rw [if_neg Bool.false_ne_true, Option.isSome_none]
              rw [held] at call
              cases known : (callIds owner).contains id with
              | false => rfl
              | true =>
                  cases fresh : hasResult (windowOf before) id with
                  | true => rfl
                  | false => exact absurd (call.mpr ⟨known, fresh⟩) Bool.false_ne_true

theorem orphan (tracks : Tracks before window) (result : isToolResult message = true)
    (none : answered window index message = none) : Tracks (message :: before) window := by
  have inner := not_isBoundary_of_isToolResult result
  refine ⟨?_, ?_, tracks.keyed⟩
  · intro absent owner found
    rw [List.find?_cons_of_neg (by rw [inner]; exact Bool.false_ne_true)] at found
    exact tracks.shut absent owner found
  · intro open' same
    obtain ⟨owner, found, speaks, calls⟩ := tracks.owned open' same
    refine ⟨owner, ?_, speaks, fun id => ?_⟩
    · rwa [List.find?_cons_of_neg (by rw [inner]; exact Bool.false_ne_true)]
    · rw [calls id, windowOf_cons inner, hasResult_cons, result, Bool.true_and]
      by_cases named : toolCallId message = some id
      · -- the call it names has a result already, or was never made
        rw [decide_eq_true named, Bool.true_or]
        have unanswered : ¬open'.calls.has id = true := by
          intro call
          rw [answered, if_pos result, same, Option.bind_some, Window.answer, named,
            Option.bind_some, if_pos call] at none
          cases none
        rw [calls id] at unanswered
        constructor
        · exact fun held => absurd held unanswered
        · exact fun held => absurd held.2.symm Bool.false_ne_true
      · rw [decide_eq_false named, Bool.false_or]

end Tracks

inductive Tracks.Step (before : List Message) (window : Option Window) (index : Nat)
    (message : Message) : Prop
  | moves (next : Window) (opens : nextWindow window index message = some next)
      (tracks : Tracks (message :: before) (some next))
      (paired : isToolResult message = true → answers before message = true)
  | closes (opens : nextWindow window index message = none) (boundary : isBoundary message = true)
      (silent : isAssistant message = false) (tracks : Tracks (message :: before) none)
  | drops (opens : nextWindow window index message = none) (inner : isBoundary message = false)
      (result : isToolResult message = true) (orphan : answers before message = false)
      (tracks : Tracks (message :: before) window)
  | passes (opens : nextWindow window index message = none) (inner : isBoundary message = false)
      (other : isToolResult message = false) (tracks : Tracks (message :: before) window)

theorem isToolResult_of_isBoundary {message : Message} (boundary : isBoundary message = true)
    : isToolResult message = false := by
  cases result : isToolResult message with
  | false => rfl
  | true =>
      rw [not_isBoundary_of_isToolResult result] at boundary
      cases boundary

theorem Tracks.step {before : List Message} {window : Option Window} (tracks : Tracks before window)
    (index : Nat) (message : Message) : Tracks.Step before window index message := by
  by_cases boundary : isBoundary message = true
  · cases speaks : isAssistant message with
    | true =>
        refine .moves (.opened index message) ?_ (.assistant speaks) fun result => ?_
        · rw [nextWindow, if_pos speaks]
        · rw [isToolResult_of_isBoundary boundary] at result
          cases result
    | false =>
        refine .closes ?_ boundary speaks (.user boundary speaks)
        rw [nextWindow, speaks, if_neg Bool.false_ne_true, if_pos boundary]
  · have inner : isBoundary message = false := by simpa using boundary
    have opens : nextWindow window index message = answered window index message := by
      have silent : isAssistant message = false := by
        cases speaks : isAssistant message with
        | false => rfl
        | true => exact absurd (isBoundary_of_isAssistant speaks) boundary
      rw [nextWindow, silent, if_neg Bool.false_ne_true, if_neg boundary]
    cases result : isToolResult message with
    | false =>
        refine .passes ?_ inner result (tracks.other inner result)
        rw [opens, answered, result, if_neg Bool.false_ne_true]
    | true =>
        have paired := @Tracks.isSome_answered before window index message tracks result
        cases answer : answered window index message with
        | none =>
            rw [answer] at paired
            exact .drops (opens.trans answer) inner result paired.symm
              (tracks.orphan result answer)
        | some next =>
            rw [answer] at paired
            exact .moves next (opens.trans answer) (tracks.answer answer) fun _ => paired.symm

variable {now : Nat → Int} {calls : List ToolCallView}

theorem WithSynthetics.synthetics {inserted : Nat} {kept result : List Message}
    (more : WithSynthetics kept result)
    : WithSynthetics kept (Compaction.synthetics now inserted calls ++ result) := by
  induction calls generalizing inserted with
  | nil => exact more
  | cons call rest ih => exact .insert _ _ ih

variable {rest : List Message}

theorem withoutOrphans_kept {before : List Message} {message : Message}
    (paired : isToolResult message = true → answers before message = true)
    : withoutOrphans before (message :: rest)
      = message :: withoutOrphans (message :: before) rest := by
  have kept : (isToolResult message && !answers before message) = false := by
    cases result : isToolResult message with
    | false => rfl
    | true =>
        rw [paired result]
        rfl
  rw [withoutOrphans, kept, if_neg Bool.false_ne_true]

variable {length : Nat}

/-- Without what is synthetic the repaired list is the list without its orphans, by induction over
the messages.
-/
theorem stream_withSynthetics {index inserted : Nat} {before : List Message}
    {window : Option Window} (tracks : Tracks before window) (rest : List Message)
    : WithSynthetics (withoutOrphans before rest)
        (stream now length window index inserted rest) := by
  induction rest generalizing before window index inserted with
  | nil => exact .nil
  | cons message rest ih =>
      rw [stream]
      cases tracks.step index message with
      | moves next opens tracks paired =>
          rw [opens, withoutOrphans_kept paired]
          exact .keep message (.synthetics (ih tracks))
      | closes opens boundary silent tracks =>
          rw [opens, withoutOrphans_kept fun result => by
            rw [isToolResult_of_isBoundary boundary] at result
            cases result]
          dsimp only
          rw [if_pos boundary]
          exact .keep message (ih tracks)
      | drops opens inner result orphan tracks =>
          rw [opens, withoutOrphans, result, orphan]
          dsimp only
          rw [inner, if_neg Bool.false_ne_true, if_pos rfl]
          exact ih tracks
      | passes opens inner other tracks =>
          rw [opens, withoutOrphans_kept fun result => by
            rw [other] at result
            cases result]
          dsimp only
          rw [inner, if_neg Bool.false_ne_true, other, if_neg Bool.false_ne_true]
          exact .keep message (ih tracks)

/-- No message of the open window answers one of its calls. -/
def Quiet (window : Window) (index : Nat) : List Message → Prop
  | [] => True
  | message :: rest =>
      isBoundary message = true
      ∨ answered (some window) index message = none ∧ Quiet window (index + 1) rest

/-- Where something is pending nothing is answered later, by induction over the messages. -/
theorem quiet_of_pending {window : Window} {index : Nat}
    (some : pending length window index rest ≠ []) : Quiet window index rest := by
  induction rest generalizing index with
  | nil => trivial
  | cons message rest ih =>
      rw [pending] at some
      by_cases boundary : isBoundary message = true
      · exact .inl boundary
      · rw [if_neg boundary] at some
        cases answer : answered (Option.some window) index message with
        | some next =>
            rw [answer, Option.isSome_some, if_pos rfl] at some
            exact absurd rfl some
        | none =>
            rw [answer, Option.isSome_none, if_neg Bool.false_ne_true] at some
            exact .inr ⟨answer, ih some⟩

/-- What is pending are all open calls, or none, by induction over the messages. -/
theorem pending_cases (length : Nat) (window : Window) (index : Nat) (rest : List Message)
    : pending length window index rest = []
      ∨ pending length window index rest = window.calls.values := by
  have closes : (if window.lacks length then window.calls.values else []) = []
      ∨ (if window.lacks length then window.calls.values else []) = window.calls.values := by
    split
    · exact .inr rfl
    · exact .inl rfl
  induction rest generalizing index with
  | nil => exact closes
  | cons message rest ih =>
      rw [pending]
      split
      · exact closes
      · split
        · exact .inl rfl
        · exact ih (index + 1)

@[simp] theorem isToolResult_synthetic (now : Int) (call : ToolCallView)
    : isToolResult (synthetic now call) = true := rfl

@[simp] theorem toolCallId_synthetic (now : Int) (call : ToolCallView)
    : toolCallId (synthetic now call) = some call.id := rfl

theorem isAssistant_synthetic (now : Int) (call : ToolCallView)
    : isAssistant (synthetic now call) = false := rfl

theorem allAnswer_synthetics {inserted index : Nat} {before : List Message} {window : Window}
    (tracks : Tracks before (some window)) (open' : ∀ call ∈ calls, window.calls.has call.id = true)
    (distinct : (calls.map ToolCallView.id).Nodup)
    (more : AllAnswer ((synthetics now inserted calls).reverse ++ before) rest)
    : AllAnswer before (synthetics now inserted calls ++ rest) := by
  induction calls generalizing inserted before window with
  | nil => exact more
  | cons call calls ih =>
      have answer : answered (some window) index (synthetic (now inserted) call)
          = some { window with calls := window.calls.delete call.id, windowEnd := index } := by
        rw [answered, if_pos (isToolResult_synthetic ..), Option.bind_some, Window.answer,
          toolCallId_synthetic, Option.bind_some, if_pos (open' call List.mem_cons_self)]
      obtain ⟨fresh, distinct⟩ := List.nodup_cons.mp distinct
      refine ⟨fun _ => ?_, ?_⟩
      · have paired := @Tracks.isSome_answered _ _ index _ tracks
          (isToolResult_synthetic (now inserted) call)
        rw [← paired, answer]
        rfl
      · refine ih (tracks.answer answer) (fun other member => ?_) distinct ?_
        · refine JsMap.has_delete.mpr ⟨fun same => ?_, open' other (List.mem_cons_of_mem _ member)⟩
          exact fresh (List.mem_map.mpr ⟨other, member, same⟩)
        · rwa [synthetics, List.reverse_cons, List.append_assoc] at more

theorem Tracks.values {before : List Message} {window : Window}
    (tracks : Tracks before (some window))
    : (∀ call ∈ window.calls.values, window.calls.has call.id = true)
      ∧ (window.calls.values.map ToolCallView.id).Nodup := by
  have keyed := tracks.keyed window rfl
  have ids : window.calls.values.map ToolCallView.id = window.calls.keys := by
    rw [JsMap.values, JsMap.keys, List.map_map]
    exact List.map_congr_left fun entry member => (keyed entry member).symm
  refine ⟨fun call member => ?_, ?_⟩
  · rw [JsMap.has_iff, ← ids]
    exact List.mem_map_of_mem member
  · rw [ids]
    exact window.calls.distinct

/-- The window follows the repaired list, or no later message answers one of its calls. -/
def Follows (before : List Message) (window : Option Window) (index : Nat) (rest : List Message)
    : Prop :=
  Tracks before window ∨ ∃ open', window = some open' ∧ Quiet open' index rest

theorem allAnswer_next {index inserted : Nat} {before : List Message} {window : Window}
    {message : Message}
    (tracks : Tracks (message :: before) (some window))
    (paired : isToolResult message = true → answers before message = true)
    (more : ∀ inserted before, Follows before (some window) index rest →
      AllAnswer before (stream now length (some window) index inserted rest))
    : AllAnswer before (message :: synthetics now inserted (pending length window index rest)
        ++ stream now length (some window) index
          (inserted + (pending length window index rest).length) rest) := by
  refine ⟨paired, ?_⟩
  rcases pending_cases length window index rest with none | all
  · rw [none]
    exact more _ _ (.inl tracks)
  · obtain ⟨open', distinct⟩ := tracks.values
    by_cases none : pending length window index rest = []
    · rw [none]
      exact more _ _ (.inl tracks)
    · refine @allAnswer_synthetics now _ _ _ index _ _ tracks ?_ ?_
        (more _ _ (.inr ⟨window, rfl, quiet_of_pending none⟩))
      · rwa [all]
      · rwa [all]

/-- Every result of the repaired list answers a call, by induction over the messages. -/
theorem stream_allAnswer {index inserted : Nat} {before : List Message} {window : Option Window}
    (follows : Follows before window index rest)
    : AllAnswer before (stream now length window index inserted rest) := by
  induction rest generalizing before window index inserted with
  | nil => trivial
  | cons message rest ih =>
      rw [stream]
      rcases follows with tracks | ⟨open', rfl, quiet⟩
      · cases tracks.step index message with
        | moves next opens tracks paired =>
            rw [opens]
            exact allAnswer_next tracks paired fun _ _ follows => ih follows
        | closes opens boundary silent tracks =>
            rw [opens]
            dsimp only
            rw [if_pos boundary]
            refine ⟨fun result => ?_, ih (.inl tracks)⟩
            rw [isToolResult_of_isBoundary boundary] at result
            cases result
        | drops opens inner result orphan _ =>
            rw [opens]
            dsimp only
            rw [inner, if_neg Bool.false_ne_true, if_pos result]
            exact ih (.inl tracks)
        | passes opens inner other tracks =>
            rw [opens]
            dsimp only
            rw [inner, if_neg Bool.false_ne_true, other, if_neg Bool.false_ne_true]
            refine ⟨fun result => ?_, ih (.inl tracks)⟩
            rw [other] at result
            cases result
      · by_cases boundary : isBoundary message = true
        · cases speaks : isAssistant message with
          | true =>
              rw [nextWindow, if_pos speaks]
              refine allAnswer_next (.assistant speaks) (fun result => ?_)
                fun _ _ follows => ih follows
              rw [isToolResult_of_isBoundary boundary] at result
              cases result
          | false =>
              rw [nextWindow, speaks, if_neg Bool.false_ne_true, if_pos boundary]
              dsimp only
              rw [if_pos boundary]
              refine ⟨fun result => ?_, ih (.inl (.user boundary speaks))⟩
              rw [isToolResult_of_isBoundary boundary] at result
              cases result
        · have inner : isBoundary message = false := by simpa using boundary
          obtain ⟨unanswered, quiet⟩ := quiet.resolve_left boundary
          have silent : isAssistant message = false := by
            cases speaks : isAssistant message with
            | false => rfl
            | true => exact absurd (isBoundary_of_isAssistant speaks) boundary
          rw [nextWindow, silent, if_neg Bool.false_ne_true, if_neg boundary, unanswered]
          dsimp only
          rw [if_neg boundary]
          cases result : isToolResult message with
          | true =>
              rw [if_pos rfl]
              exact ih (.inr ⟨open', rfl, quiet⟩)
          | false =>
              rw [if_neg Bool.false_ne_true]
              refine ⟨fun result' => ?_, ih (.inr ⟨open', rfl, quiet⟩)⟩
              rw [result] at result'
              cases result'

theorem hasResult_append (left right : List Message) (id : JsString)
    : hasResult (left ++ right) id = (hasResult left id || hasResult right id) :=
  List.any_append

/-- Synthetic results stay inside the window they are put into, by induction over the calls. -/
theorem windowOf_synthetics (now : Nat → Int) (inserted : Nat) (calls : List ToolCallView)
    (rest : List Message)
    : windowOf (synthetics now inserted calls ++ rest)
      = synthetics now inserted calls ++ windowOf rest := by
  induction calls generalizing inserted with
  | nil => rfl
  | cons call calls ih =>
      have inner := not_isBoundary_of_isToolResult (isToolResult_synthetic (now inserted) call)
      rw [synthetics, List.cons_append, windowOf_cons inner, ih]
      rfl

variable {id : JsString}

theorem hasResult_synthetics {inserted : Nat} (call : id ∈ calls.map ToolCallView.id)
    : hasResult (synthetics now inserted calls) id = true := by
  induction calls generalizing inserted with
  | nil => cases call
  | cons first calls ih =>
      rw [synthetics, hasResult_cons, isToolResult_synthetic, toolCallId_synthetic, Bool.true_and,
        Bool.or_eq_true, decide_eq_true_eq]
      rcases List.mem_cons.mp call with same | later
      · exact .inl (congrArg some same.symm)
      · exact .inr (ih later)

/-- A window that is to be completed when it closes. -/
structure Window.Owes (length : Nat) (window : Window) : Prop where
  replays : window.synthesize = true
  followed : window.ownerIndex + 1 < length
  keyed : ∀ entry ∈ window.calls.entries, entry.1 = entry.2.id

/-- What is inserted at its end answers every call that is still open. -/
theorem Window.Owes.closes {window : Window} (owes : window.Owes length)
    (call : window.calls.has id = true) (now : Nat → Int) (inserted : Nat) (more : List Message)
    : hasResult (windowOf (synthetics now inserted
        (if window.lacks length then window.calls.values else []) ++ more)) id = true := by
  obtain ⟨entry, member, same⟩ := List.mem_map.mp (JsMap.has_iff.mp call)
  have lacks : window.lacks length = true := by
    rw [Window.lacks, owes.replays, decide_eq_true owes.followed, Bool.and_true, Bool.and_true]
    exact decide_eq_true (List.length_pos_of_mem member)
  rw [if_pos lacks, windowOf_synthetics, hasResult_append, hasResult_synthetics, Bool.true_or]
  refine List.mem_map.mpr ⟨entry.2, List.mem_map_of_mem member, ?_⟩
  rw [← owes.keyed entry member, same]

/-- An open call of a window that is to be completed has its result, arrived or synthetic, by
induction over the messages.
-/
theorem stream_answers {index inserted inserted' : Nat} {window : Window} (owes : window.Owes length)
    (call : window.calls.has id = true)
    : hasResult (windowOf (synthetics now inserted (pending length window index rest)
        ++ stream now length (some window) index inserted' rest)) id = true := by
  induction rest generalizing window index inserted inserted' with
  | nil => exact owes.closes call ..
  | cons message rest ih =>
      rw [pending]
      by_cases boundary : isBoundary message = true
      · rw [if_pos boundary]
        exact owes.closes call ..
      · have inner : isBoundary message = false := by simpa using boundary
        have silent : isAssistant message = false := by
          cases speaks : isAssistant message with
          | false => rfl
          | true => exact absurd (isBoundary_of_isAssistant speaks) boundary
        rw [if_neg boundary, stream, nextWindow, silent, if_neg Bool.false_ne_true, if_neg boundary]
        cases answer : answered (some window) index message with
        | some next =>
            obtain ⟨open', other, same, result, named, _, rfl⟩ := Tracks.answered_cases answer
            obtain rfl := Option.some.inj same
            rw [Option.isSome_some, if_pos rfl]
            dsimp only
            rw [synthetics, List.nil_append, List.cons_append, windowOf_cons inner, hasResult_cons,
              result, named, Bool.true_and]
            by_cases wanted : other = id
            · rw [wanted, decide_eq_true rfl, Bool.true_or]
            · rw [decide_eq_false (fun same => wanted (Option.some.inj same)), Bool.false_or]
              refine ih ⟨owes.replays, owes.followed, fun entry member => ?_⟩
                (JsMap.has_delete.mpr ⟨fun same => wanted same.symm, call⟩)
              exact owes.keyed entry (List.mem_filter.mp member).1
        | none =>
            rw [Option.isSome_none, if_neg Bool.false_ne_true]
            dsimp only
            rw [if_neg boundary]
            cases result : isToolResult message with
            | true =>
                rw [if_pos rfl]
                exact ih owes call
            | false =>
                rw [if_neg Bool.false_ne_true]
                have later := @ih (index + 1) inserted inserted' window owes call
                rw [windowOf_synthetics, hasResult_append] at later
                rw [windowOf_synthetics, windowOf_cons inner, hasResult_append, hasResult_cons,
                  result, Bool.false_and, Bool.false_or]
                exact later

/-- The window of an assistant that is replayed and not last is to be completed. -/
theorem Window.owes_opened {index : Nat} {message : Message} (speaks : isAssistant message = true)
    (replays : replaysAssistant message = true) (followed : index + 1 < length)
    : (Window.opened index message).Owes length where
  replays := replays
  followed := followed
  keyed := (@Tracks.assistant [] index message speaks).keyed _ rfl

theorem has_opened {index : Nat} {message : Message} (call : id ∈ callIds message)
    : (Window.opened index message).calls.has id = true :=
  JsMap.has_bindAll.mpr (.inr call)

theorem complete_synthetics {inserted : Nat} (more : Complete rest)
    : Complete (synthetics now inserted calls ++ rest) := by
  induction calls generalizing inserted with
  | nil => exact more
  | cons call calls ih =>
      refine ⟨fun speaks => ?_, ih⟩
      rw [isAssistant_synthetic] at speaks
      cases speaks

theorem not_isAssistant {message : Message} (inner : isBoundary message = false)
    : isAssistant message = false := by
  cases speaks : isAssistant message with
  | false => rfl
  | true =>
      rw [isBoundary_of_isAssistant speaks] at inner
      cases inner

/-- In the repaired list every call that is replayed has its result, by induction over the messages.
-/
theorem stream_complete {index inserted : Nat} {window : Option Window}
    (ends : length = index + rest.length)
    : Complete (stream now length window index inserted rest) := by
  induction rest generalizing window index inserted with
  | nil => trivial
  | cons message rest ih =>
      have ends' : length = index + 1 + rest.length := by
        rw [ends, List.length_cons]
        omega
      rw [stream]
      cases opens : nextWindow window index message with
      | some next =>
          refine ⟨fun speaks replays followed id call => ?_, complete_synthetics (ih ends')⟩
          rw [nextWindow, if_pos speaks] at opens
          obtain rfl := Option.some.inj opens
          refine stream_answers (Window.owes_opened speaks replays ?_) (has_opened call)
          cases rest with
          | nil =>
              -- the last message of the input stays the last one
              refine absurd ?_ followed
              have last : (Window.opened index message).lacks length = false := by
                rw [Window.lacks, ends]
                show (_ && _ && decide (index + 1 < index + 1)) = false
                rw [decide_eq_false (lt_irrefl _), Bool.and_false]
              rw [pending, last]
              rfl
          | cons => rw [ends']; simp
      | none =>
          dsimp only
          by_cases boundary : isBoundary message = true
          · rw [if_pos boundary]
            refine ⟨fun speaks => ?_, ih ends'⟩
            rw [nextWindow, if_pos speaks] at opens
            cases opens
          · have inner : isBoundary message = false := by simpa using boundary
            rw [if_neg boundary]
            split
            · exact ih ends'
            · refine ⟨fun speaks => ?_, ih ends'⟩
              rw [not_isAssistant inner] at speaks
              cases speaks

theorem filter_synthetics (now : Nat → Int) (inserted : Nat) (calls : List ToolCallView)
    : (synthetics now inserted calls).filter isBoundary = [] := by
  induction calls generalizing inserted with
  | nil => rfl
  | cons call calls ih =>
      have inner := not_isBoundary_of_isToolResult (isToolResult_synthetic (now inserted) call)
      rw [synthetics, List.filter_cons_of_neg (by rw [inner]; exact Bool.false_ne_true), ih]

/-- An assistant of the input stands in the repaired list, after the same user and assistant
messages, and has its results, by induction over what is before it.
-/
theorem stream_assistant {index inserted : Nat} {window : Option Window}
    {before after : List Message} {owner : Message} (ends : length = index + (before ++ owner :: after).length)
    (speaks : isAssistant owner = true)
    : ∃ before' after', stream now length window index inserted (before ++ owner :: after)
          = before' ++ owner :: after'
        ∧ before'.filter isBoundary = before.filter isBoundary
        ∧ (replaysAssistant owner = true → after ≠ [] →
          ∀ id ∈ callIds owner, hasResult (windowOf after') id = true) := by
  induction before generalizing window index inserted with
  | nil =>
      rw [List.nil_append, stream, nextWindow, if_pos speaks]
      refine ⟨[], _, rfl, rfl, fun replays followed id call => ?_⟩
      refine stream_answers (Window.owes_opened speaks replays ?_) (has_opened call)
      rw [ends]
      have some := List.length_pos_of_ne_nil followed
      simp only [List.nil_append, List.length_cons]
      omega
  | cons message before ih =>
      have ends' : length = index + 1 + (before ++ owner :: after).length := by
        rw [ends, List.cons_append, List.length_cons]
        omega
      have kept {shown before' : List Message}
          (same : before'.filter isBoundary = before.filter isBoundary)
          (silent : shown.filter isBoundary = [message].filter isBoundary)
          : (shown ++ before').filter isBoundary = (message :: before).filter isBoundary := by
        rw [List.filter_append, same, silent, ← List.filter_append]
        rfl
      rw [List.cons_append, stream]
      cases opens : nextWindow window index message with
      | some next =>
          obtain ⟨before', after', split, same, results⟩ := @ih (index + 1) (inserted
            + (pending length next (index + 1) (before ++ owner :: after)).length) (some next) ends'
          refine ⟨message :: synthetics now inserted
            (pending length next (index + 1) (before ++ owner :: after)) ++ before', after', ?_, ?_,
            results⟩
          · dsimp only
            rw [split, List.append_assoc]
          · refine kept same ?_
            rw [List.filter_cons, List.filter_cons, filter_synthetics]
            rfl
      | none =>
          dsimp only
          by_cases boundary : isBoundary message = true
          · rw [if_pos boundary]
            obtain ⟨before', after', split, same, results⟩ := @ih (index + 1) inserted none ends'
            exact ⟨[message] ++ before', after', by rw [split]; rfl, kept same rfl, results⟩
          · rw [if_neg boundary]
            obtain ⟨before', after', split, same, results⟩ := @ih (index + 1) inserted window ends'
            split
            · refine ⟨[] ++ before', after', split, kept same ?_, results⟩
              rw [List.filter_cons_of_neg boundary]
            · exact ⟨[message] ++ before', after', by rw [split]; rfl, kept same rfl, results⟩

variable {detection : Detection}

theorem Detection.closeWindow_same
    (settled : ∀ window, detection.window = some window → window.lacks length = false)
    : (detection.closeWindow length).drop = detection.drop
      ∧ (detection.closeWindow length).insertAfter = detection.insertAfter := by
  refine ⟨Detection.closeWindow_drop length detection, ?_⟩
  unfold Detection.closeWindow
  cases open' : detection.window with
  | none => rfl
  | some window =>
      dsimp only
      rw [settled window open', if_neg Bool.false_ne_true]

/-- A window whose calls all have their results in what follows. -/
def Window.Filled (length : Nat) (window : Window) (rest : List Message) : Prop :=
  window.synthesize = true → window.ownerIndex + 1 < length →
    ∀ id, window.calls.has id = true → hasResult (windowOf rest) id = true

theorem Window.Filled.lacks {window : Window} (filled : window.Filled length rest)
    (ended : windowOf rest = [])
    : window.lacks length = false := by
  cases lacks : window.lacks length with
  | false => rfl
  | true =>
      simp only [Window.lacks, Bool.and_eq_true, decide_eq_true_eq] at lacks
      obtain ⟨⟨some, replays⟩, followed⟩ := lacks
      obtain ⟨entry, member⟩ := List.exists_mem_of_length_pos some
      have call : window.calls.has entry.1 = true :=
        JsMap.has_iff.mpr (List.mem_map_of_mem member)
      have result := filled replays followed entry.1 call
      rw [ended] at result
      cases result

/-- In a paired list nothing is dropped or inserted, by induction over the messages. -/
theorem detect_paired {length index : Nat} {before rest : List Message} {detection : Detection}
    (ends : length = index + rest.length) (tracks : Tracks before detection.window)
    (sound : AllAnswer before rest) (complete : Complete rest)
    (filled : ∀ window, detection.window = some window → window.Filled length rest)
    : (detect length index detection rest).drop = detection.drop
      ∧ (detect length index detection rest).insertAfter = detection.insertAfter := by
  induction rest generalizing before index detection with
  | nil =>
      exact Detection.closeWindow_same fun window open' =>
        Window.Filled.lacks (filled window open') rfl
  | cons message rest ih =>
      have ends' : length = index + 1 + rest.length := by
        rw [ends, List.length_cons]
        omega
      rw [detect]
      by_cases boundary : isBoundary message = true
      · have closes := @Detection.closeWindow_same length detection fun window open' =>
          Window.Filled.lacks (filled window open') (windowOf_boundary boundary rest)
        cases speaks : isAssistant message with
        | true =>
            rw [Detection.read_assistant speaks]
            have next := @ih (index + 1) (message :: before)
              { detection.closeWindow length with window := some (.opened index message) } ends'
              (.assistant speaks) sound.2 complete.2 ?_
            · exact ⟨next.1.trans closes.1, next.2.trans closes.2⟩
            intro window same replays followed id call
            obtain rfl := Option.some.inj same
            have some : rest ≠ [] := by
              rintro rfl
              have last : index + 1 < length := followed
              rw [ends', List.length_nil] at last
              omega
            refine complete.1 speaks replays some id ?_
            rcases JsMap.has_bindAll.mp call with none | made
            · cases none
            · exact made
        | false =>
            rw [Detection.read_user boundary speaks]
            have next := @ih (index + 1) (message :: before) (detection.closeWindow length) ends'
              (by rw [Detection.closeWindow_window]; exact .user boundary speaks) sound.2
              complete.2 ?_
            · exact ⟨next.1.trans closes.1, next.2.trans closes.2⟩
            intro window same
            rw [Detection.closeWindow_window] at same
            cases same
      · have inner : isBoundary message = false := by simpa using boundary
        cases result : isToolResult message with
        | false =>
            rw [Detection.read_other inner result]
            refine ih ends' (tracks.other inner result) sound.2 complete.2 ?_
            intro window open' replays followed id call
            have held := filled window open' replays followed id call
            rwa [windowOf_cons inner, hasResult_cons, result, Bool.false_and, Bool.false_or] at held
        | true =>
            have paired := @Tracks.isSome_answered _ _ index _ tracks result
            rw [sound.1 result] at paired
            obtain ⟨next, answer⟩ := Option.isSome_iff_exists.mp paired
            rw [Detection.read_answer answer]
            refine @ih (index + 1) (message :: before) { detection with window := some next } ends'
              (tracks.answer answer) sound.2 complete.2 ?_
            intro window same replays followed id call
            obtain rfl := Option.some.inj same
            obtain ⟨open', other, held, _, named, _, rfl⟩ := Tracks.answered_cases answer
            obtain ⟨apart, call⟩ := JsMap.has_delete.mp call
            have filled' := filled open' held replays followed id call
            rwa [windowOf_cons inner, hasResult_cons, result, named, Bool.true_and,
              decide_eq_false (fun same => apart (Option.some.inj same).symm), Bool.false_or]
              at filled'

/-- Rebuilding changes nothing where nothing was found, by induction over the messages. -/
theorem rebuild_nothing {index : Nat} (dropped : detection.drop = [])
    (missing : detection.insertAfter = .empty) (messages : List Message)
    : (rebuild now detection index inserted messages).1 = messages := by
  induction messages generalizing index inserted with
  | nil => rfl
  | cons message rest ih =>
      have kept : index ∉ detection.drop := by
        rw [dropped]
        exact List.not_mem_nil
      have inserts : (detection.insertAfter.get? index).getD [] = [] := by
        rw [missing]
        rfl
      rw [rebuild_kept kept inserts, ih]
      rfl

theorem repair_messages (now : Nat → Int) (messages : List Message)
    : (repairToolResultPairing now messages).messages
      = stream now messages.length none 0 0 messages := by
  have passes := @rebuild_detect now messages.length 0 0 .start Detection.fresh_start messages
  rw [repairToolResultPairing]
  dsimp only
  split
  · next nothing =>
      simp only [Bool.and_eq_true, decide_eq_true_eq, List.length_eq_zero_iff] at nothing
      have missing : (detect messages.length 0 .start messages).insertAfter = .empty :=
        JsMap.ext (List.length_eq_zero_iff.mp nothing.2)
      exact (rebuild_nothing nothing.1 missing messages).symm.trans passes
  · exact passes

/-- Every result answers a call, and every call of an assistant that is replayed and not last has
its result before the next user or assistant message.
-/
structure Paired (messages : List Message) : Prop where
  sound : ∀ before result after, messages = before ++ result :: after →
    isToolResult result = true → answers before.reverse result = true
  complete : ∀ before owner after, messages = before ++ owner :: after →
    isAssistant owner = true → replaysAssistant owner = true → after ≠ [] →
    ∀ id ∈ callIds owner, hasResult (windowOf after) id = true

theorem complete_iff
    : Complete messages
      ↔ ∀ before owner after, messages = before ++ owner :: after → isAssistant owner = true →
          replaysAssistant owner = true → after ≠ [] →
          ∀ id ∈ callIds owner, hasResult (windowOf after) id = true := by
  induction messages with
  | nil =>
      refine ⟨fun _ before owner after split => ?_, fun _ => trivial⟩
      exact absurd split.symm (by simp)
  | cons message rest ih =>
      rw [Complete, ih]
      constructor
      · intro all before owner after split
        cases before with
        | nil =>
            obtain ⟨rfl, rfl⟩ := List.cons.inj split
            exact all.1
        | cons first before => exact all.2 before owner after (List.cons.inj split).2
      · intro all
        refine ⟨all [] message rest rfl, fun before owner after split => ?_⟩
        exact all (message :: before) owner after (by rw [split]; rfl)

theorem paired_iff
    : Paired messages ↔ AllAnswer [] messages ∧ Complete messages := by
  rw [allAnswer_iff, complete_iff]
  constructor
  · intro paired
    refine ⟨fun before result after split isResult => ?_, paired.complete⟩
    rw [List.append_nil]
    exact paired.sound before result after split isResult
  · intro both
    refine ⟨fun before result after split isResult => ?_, both.2⟩
    have sound := both.1 before result after split isResult
    rwa [List.append_nil] at sound

theorem repair_paired (paired : Paired messages) (now : Nat → Int)
    : repairToolResultPairing now messages = ⟨messages, 0, 0⟩ := by
  obtain ⟨sound, complete⟩ := paired_iff.mp paired
  obtain ⟨dropped, missing⟩ := @detect_paired messages.length 0 [] messages .start
    (Nat.zero_add _).symm .start sound complete fun _ open' => nomatch open'
  rw [repairToolResultPairing, dropped, missing]
  rfl

theorem paired_repair (now : Nat → Int) (messages : List Message)
    : Paired (repairToolResultPairing now messages).messages := by
  rw [repair_messages, paired_iff]
  exact ⟨stream_allAnswer (.inl .start), stream_complete (Nat.zero_add _).symm⟩

/-- The repair is sound, complete and minimal: in its list every result answers an open call; an
assistant of the input that is replayed and not last stands there with all its results; without what
is synthetic the list is the input without its orphans and duplicates; a paired list is returned as
it is, the repaired one among them.
-/
theorem repair_is_sound_complete_and_minimal (now later : Nat → Int) (messages : List Message)
    : (∀ before result after,
        (repairToolResultPairing now messages).messages = before ++ result :: after →
        isToolResult result = true → answers before.reverse result = true)
      ∧ (∀ before owner after, messages = before ++ owner :: after → isAssistant owner = true →
        ∃ before' after',
          (repairToolResultPairing now messages).messages = before' ++ owner :: after'
          ∧ before'.filter isBoundary = before.filter isBoundary
          ∧ (replaysAssistant owner = true → after ≠ [] →
            ∀ id ∈ callIds owner, hasResult (windowOf after') id = true))
      ∧ WithSynthetics (withoutOrphans [] messages)
        (repairToolResultPairing now messages).messages
      ∧ (Paired messages → repairToolResultPairing now messages = ⟨messages, 0, 0⟩)
      ∧ repairToolResultPairing later (repairToolResultPairing now messages).messages
        = ⟨(repairToolResultPairing now messages).messages, 0, 0⟩ := by
  refine ⟨(paired_repair now messages).sound, fun before owner after split speaks => ?_, ?_,
    fun paired => repair_paired paired now, repair_paired (paired_repair now messages) later⟩
  · rw [repair_messages, split]
    exact stream_assistant (Nat.zero_add _).symm speaks
  · rw [repair_messages]
    exact stream_withSynthetics .start messages

end PiFabric.Compaction
