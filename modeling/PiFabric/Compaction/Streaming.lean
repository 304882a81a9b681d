import PiFabric.Compaction.Context

/-! The repair in one pass: what is inserted after a message depends on whether a later message of
the same window still answers one of its calls.
-/

namespace PiFabric.Compaction

open JsString

/-- Whether a message answers a call of the open window, and the window after it. -/
def answered (window : Option Window) (index : Nat) (message : Message) : Option Window :=
  if isToolResult message then window.bind fun window => window.answer index message else none

/-- The calls that are answered after the last message of a window, given the messages that follow.
-/
def pending (length : Nat) (window : Window) (index : Nat) : List Message → List ToolCallView
  | [] => if window.lacks length then window.calls.values else []
  | message :: rest =>
      if isBoundary message then if window.lacks length then window.calls.values else []
      else if (answered (some window) index message).isSome then []
      else pending length window (index + 1) rest

def nextWindow (window : Option Window) (index : Nat) (message : Message) : Option Window :=
  if isAssistant message then some (.opened index message)
  else if isBoundary message then none
  else answered window index message

def stream (now : Nat → Int) (length : Nat) (window : Option Window) (index inserted : Nat)
    : List Message → List Message
  | [] => []
  | message :: rest =>
      match nextWindow window index message with
      | some next =>
          let missing := pending length next (index + 1) rest
          message :: synthetics now inserted missing
            ++ stream now length (some next) (index + 1) (inserted + missing.length) rest
      | none =>
          if isBoundary message then message :: stream now length none (index + 1) inserted rest
          else if isToolResult message then stream now length window (index + 1) inserted rest
          else message :: stream now length window (index + 1) inserted rest

theorem isBoundary_of_isAssistant {message : Message} (assistant : isAssistant message = true)
    : isBoundary message = true := by
  rw [isBoundary, assistant, Bool.or_true]

theorem not_isBoundary_of_isToolResult {message : Message} (result : isToolResult message = true)
    : isBoundary message = false := by
  have named : role message = some (lit "toolResult") := of_decide_eq_true result
  rw [isBoundary, isUser, isAssistant, named]
  decide

section

variable {length index : Nat} {detection : Detection} {message : Message}

theorem Detection.read_assistant (assistant : isAssistant message = true)
    : detection.read length index message
      = { detection.closeWindow length with window := some (.opened index message) } := by
  rw [Detection.read, if_pos (isBoundary_of_isAssistant assistant), if_pos assistant]

theorem Detection.read_user (boundary : isBoundary message = true)
    (other : isAssistant message = false)
    : detection.read length index message = detection.closeWindow length := by
  rw [Detection.read, if_pos boundary, other, if_neg Bool.false_ne_true]

theorem Detection.read_answer {window : Window}
    (answers : answered detection.window index message = some window)
    : detection.read length index message = { detection with window := some window } := by
  unfold answered at answers
  split at answers
  · next result =>
      rw [Detection.read, not_isBoundary_of_isToolResult result, if_neg Bool.false_ne_true,
        if_pos result, answers]
  · cases answers

theorem Detection.read_drop (result : isToolResult message = true)
    (orphan : answered detection.window index message = none)
    : detection.read length index message
      = { detection with drop := detection.drop ++ [index] } := by
  rw [answered, if_pos result] at orphan
  rw [Detection.read, not_isBoundary_of_isToolResult result, if_neg Bool.false_ne_true,
    if_pos result, orphan]

theorem Detection.read_other (boundary : isBoundary message = false)
    (result : isToolResult message = false)
    : detection.read length index message = detection := by
  rw [Detection.read, boundary, if_neg Bool.false_ne_true, result, if_neg Bool.false_ne_true]

end

/-- Nothing is noted of an index that is still to come, nor of the last index of the open window. -/
structure Detection.Fresh (index : Nat) (detection : Detection) : Prop where
  dropped : ∀ other ∈ detection.drop, other < index
  inserted : ∀ other, index ≤ other → detection.insertAfter.get? other = none
  inside : ∀ window, detection.window = some window → window.windowEnd < index
  clear : ∀ window, detection.window = some window →
    detection.insertAfter.get? window.windowEnd = none

theorem Window.answer_windowEnd {window next : Window} {index : Nat} {message : Message}
    (answers : window.answer index message = some next) : next.windowEnd = index := by
  obtain ⟨id, _, held⟩ := Option.bind_eq_some_iff.mp answers
  split at held
  · obtain rfl := Option.some.inj held
    rfl
  · cases held

theorem answered_windowEnd {window : Option Window} {next : Window} {index : Nat}
    {message : Message} (answers : answered window index message = some next)
    : next.windowEnd = index := by
  unfold answered at answers
  split at answers
  · obtain ⟨open', _, answer⟩ := Option.bind_eq_some_iff.mp answers
    exact Window.answer_windowEnd answer
  · cases answers

/-- What a window that closes leaves behind. -/
theorem Detection.get?_closeWindow {length : Nat} {detection : Detection} (index : Nat)
    : (detection.closeWindow length).insertAfter.get? index
      = match detection.window with
        | none => detection.insertAfter.get? index
        | some window =>
            if window.lacks length ∧ index = window.windowEnd then some window.calls.values
            else detection.insertAfter.get? index := by
  unfold Detection.closeWindow
  cases detection.window with
  | none => rfl
  | some window =>
      dsimp only
      by_cases lacks : window.lacks length = true
      · rw [if_pos lacks, JsMap.get?_set]
        by_cases same : index = window.windowEnd
        · rw [if_pos same, if_pos ⟨lacks, same⟩]
        · rw [if_neg same, if_neg fun both => same both.2]
      · rw [if_neg lacks, if_neg fun both => lacks both.1]

theorem Detection.closeWindow_drop (length : Nat) (detection : Detection)
    : (detection.closeWindow length).drop = detection.drop := by
  unfold Detection.closeWindow
  cases detection.window <;> rfl

theorem Detection.closeWindow_window (length : Nat) (detection : Detection)
    : (detection.closeWindow length).window = none := by
  unfold Detection.closeWindow
  cases open' : detection.window with
  | none => exact open'
  | some window => rfl

namespace Detection.Fresh

variable {length index : Nat} {detection : Detection} {message : Message}

theorem closeWindow (fresh : detection.Fresh index)
    : (detection.closeWindow length).Fresh index where
  dropped := by
    rw [Detection.closeWindow_drop]
    exact fresh.dropped
  inserted := by
    intro other later
    rw [Detection.get?_closeWindow]
    cases open' : detection.window with
    | none => exact fresh.inserted other later
    | some window =>
        have inside := fresh.inside window open'
        dsimp only
        rw [if_neg fun both => by omega]
        exact fresh.inserted other later
  inside := by
    intro window open'
    rw [Detection.closeWindow_window] at open'
    cases open'
  clear := by
    intro window open'
    rw [Detection.closeWindow_window] at open'
    cases open'

theorem later (fresh : detection.Fresh index) : detection.Fresh (index + 1) where
  dropped := fun other member => Nat.lt_succ_of_lt (fresh.dropped other member)
  inserted := fun other bound => fresh.inserted other (by omega)
  inside := fun window open' => Nat.lt_succ_of_lt (fresh.inside window open')
  clear := fresh.clear

theorem opening (fresh : detection.Fresh index) {window : Window}
    (ends : window.windowEnd = index)
    : ({ detection with window := some window } : Detection).Fresh (index + 1) where
  dropped := fresh.later.dropped
  inserted := fresh.later.inserted
  inside := by
    intro other same
    obtain rfl := Option.some.inj same
    omega
  clear := by
    intro other same
    obtain rfl := Option.some.inj same
    exact fresh.inserted _ (le_of_eq ends.symm)

theorem read (fresh : detection.Fresh index)
    : (detection.read length index message).Fresh (index + 1) := by
  by_cases boundary : isBoundary message = true
  · cases assistant : isAssistant message with
    | true =>
        rw [Detection.read_assistant assistant]
        exact fresh.closeWindow.opening rfl
    | false =>
        rw [Detection.read_user boundary assistant]
        exact fresh.closeWindow.later
  · have inner : isBoundary message = false := by simpa using boundary
    cases result : isToolResult message with
    | false =>
        rw [Detection.read_other inner result]
        exact fresh.later
    | true =>
        cases answers : answered detection.window index message with
        | some window =>
            rw [Detection.read_answer answers]
            exact fresh.opening (answered_windowEnd answers)
        | none =>
            rw [Detection.read_drop result answers]
            refine ⟨?_, fresh.later.inserted, fresh.later.inside, fresh.clear⟩
            intro other member
            rcases List.mem_append.mp member with before | same
            · exact fresh.later.dropped other before
            · rw [List.mem_singleton.mp same]
              exact Nat.lt_succ_self index

end Detection.Fresh

section

variable {length index : Nat} {detection : Detection} {message : Message}

variable {other : Nat}

theorem Detection.mem_read_drop (before : other < index)
    : other ∈ (detection.read length index message).drop ↔ other ∈ detection.drop := by
  by_cases boundary : isBoundary message = true
  · cases assistant : isAssistant message with
    | true => rw [Detection.read_assistant assistant, Detection.closeWindow_drop]
    | false => rw [Detection.read_user boundary assistant, Detection.closeWindow_drop]
  · have inner : isBoundary message = false := by simpa using boundary
    cases result : isToolResult message with
    | false => rw [Detection.read_other inner result]
    | true =>
        cases answers : answered detection.window index message with
        | some window => rw [Detection.read_answer answers]
        | none =>
            rw [Detection.read_drop result answers, List.mem_append, List.mem_singleton]
            constructor
            · intro member
              rcases member with member | same
              · exact member
              · omega
            · exact .inl

theorem mem_detect_drop (before : other < index) (rest : List Message)
    : other ∈ (detect length index detection rest).drop ↔ other ∈ detection.drop := by
  induction rest generalizing index detection with
  | nil => rw [detect, Detection.closeWindow_drop]
  | cons message rest ih =>
      rw [detect, ih (Nat.lt_succ_of_lt before), Detection.mem_read_drop before]

/-- An index that is not the end of the open window. -/
def Detection.Settled (other : Nat) (detection : Detection) : Prop :=
  ∀ window, detection.window = some window → window.windowEnd ≠ other

theorem Detection.Settled.get?_closeWindow (settled : detection.Settled other)
    : (detection.closeWindow length).insertAfter.get? other
      = detection.insertAfter.get? other := by
  rw [Detection.get?_closeWindow]
  cases open' : detection.window with
  | none => rfl
  | some window =>
      dsimp only
      rw [if_neg fun both => settled window open' both.2.symm]

theorem Detection.Settled.read (settled : detection.Settled other) (before : other < index)
    : (detection.read length index message).Settled other
      ∧ (detection.read length index message).insertAfter.get? other
        = detection.insertAfter.get? other := by
  by_cases boundary : isBoundary message = true
  · cases assistant : isAssistant message with
    | true =>
        rw [Detection.read_assistant assistant]
        refine ⟨?_, settled.get?_closeWindow⟩
        intro window same
        obtain rfl := Option.some.inj same
        exact (Nat.ne_of_lt before).symm
    | false =>
        rw [Detection.read_user boundary assistant]
        refine ⟨?_, settled.get?_closeWindow⟩
        intro window open'
        rw [Detection.closeWindow_window] at open'
        cases open'
  · have inner : isBoundary message = false := by simpa using boundary
    cases result : isToolResult message with
    | false =>
        rw [Detection.read_other inner result]
        exact ⟨settled, rfl⟩
    | true =>
        cases answers : answered detection.window index message with
        | some next =>
            rw [Detection.read_answer answers]
            refine ⟨?_, rfl⟩
            intro window same
            obtain rfl := Option.some.inj same
            rw [answered_windowEnd answers]
            exact (Nat.ne_of_lt before).symm
        | none =>
            rw [Detection.read_drop result answers]
            exact ⟨settled, rfl⟩

theorem Detection.Settled.get?_detect (settled : detection.Settled other) (before : other < index)
    (rest : List Message)
    : (detect length index detection rest).insertAfter.get? other
      = detection.insertAfter.get? other := by
  induction rest generalizing index detection with
  | nil => exact settled.get?_closeWindow
  | cons message rest ih =>
      obtain ⟨settled', same⟩ :=
        @Detection.Settled.read length index detection message _ settled before
      rw [detect, ih settled' (Nat.lt_succ_of_lt before), same]

/-- What is inserted at the end of the open window is what the stream looks ahead for, by induction
over the rest.
-/
theorem get?_detect_windowEnd {window : Window} (fresh : detection.Fresh index)
    (open' : detection.window = some window) (rest : List Message)
    : ((detect length index detection rest).insertAfter.get? window.windowEnd).getD []
      = pending length window index rest := by
  have inside := fresh.inside window open'
  have clear := fresh.clear window open'
  have closes : ((detection.closeWindow length).insertAfter.get? window.windowEnd).getD []
      = if window.lacks length then window.calls.values else [] := by
    rw [Detection.get?_closeWindow, open']
    dsimp only
    by_cases lacks : window.lacks length = true
    · rw [if_pos ⟨lacks, rfl⟩, if_pos lacks]
      rfl
    · rw [if_neg fun both => lacks both.1, if_neg lacks, clear]
      rfl
  induction rest generalizing index detection with
  | nil => exact closes
  | cons message rest ih =>
      rw [detect, pending]
      by_cases boundary : isBoundary message = true
      · rw [if_pos boundary, ← closes]
        cases assistant : isAssistant message with
        | true =>
            rw [Detection.read_assistant assistant]
            have settled
                : ({ detection.closeWindow length with
                    window := some (.opened index message) } : Detection).Settled
                  window.windowEnd := by
              intro other same
              obtain rfl := Option.some.inj same
              exact (Nat.ne_of_lt inside).symm
            rw [settled.get?_detect (Nat.lt_succ_of_lt inside)]
        | false =>
            rw [Detection.read_user boundary assistant]
            have settled : (detection.closeWindow length).Settled window.windowEnd := by
              intro other same
              rw [Detection.closeWindow_window] at same
              cases same
            rw [settled.get?_detect (Nat.lt_succ_of_lt inside)]
      · have inner : isBoundary message = false := by simpa using boundary
        rw [if_neg boundary]
        cases answers : answered (some window) index message with
        | some next =>
            have answers' : answered detection.window index message = some next := by
              rw [open', answers]
            have settled
                : ({ detection with window := some next } : Detection).Settled
                  window.windowEnd := by
              intro other same
              obtain rfl := Option.some.inj same
              rw [answered_windowEnd answers]
              exact (Nat.ne_of_lt inside).symm
            rw [Detection.read_answer answers', settled.get?_detect (Nat.lt_succ_of_lt inside)]
            simp only [clear, Option.getD_none, Option.isSome_some, if_true]
        | none =>
            rw [Option.isSome_none, if_neg Bool.false_ne_true]
            have kept : (detection.read length index message).window = some window
                ∧ (detection.read length index message).insertAfter = detection.insertAfter := by
              cases result : isToolResult message with
              | false =>
                  rw [Detection.read_other inner result]
                  exact ⟨open', rfl⟩
              | true =>
                  rw [Detection.read_drop result (by rw [open', answers])]
                  exact ⟨open', rfl⟩
            have fresh' := @Detection.Fresh.read length index detection message fresh
            refine ih fresh' kept.1 (Nat.lt_succ_of_lt inside) (fresh'.clear window kept.1) ?_
            rw [Detection.get?_closeWindow, kept.1, kept.2, ← closes, Detection.get?_closeWindow,
              open']

end

theorem rebuild_kept {now : Nat → Int} {detection : Detection} {index inserted : Nat}
    {message : Message} {rest : List Message} {missing : List ToolCallView}
    (kept : index ∉ detection.drop)
    (inserts : (detection.insertAfter.get? index).getD [] = missing)
    : (rebuild now detection index inserted (message :: rest)).1
      = message :: synthetics now inserted missing
        ++ (rebuild now detection (index + 1) (inserted + missing.length) rest).1 := by
  rw [rebuild, if_neg kept, inserts]
  rfl

/-- The two passes over the indices make the list of the one pass over the messages, by induction
over the messages that are left.
-/
theorem rebuild_detect {now : Nat → Int} {length index inserted : Nat} {detection : Detection}
    (fresh : detection.Fresh index) (rest : List Message)
    : (rebuild now (detect length index detection rest) index inserted rest).1
      = stream now length detection.window index inserted rest := by
  induction rest generalizing index inserted detection with
  | nil => rfl
  | cons message rest ih =>
      have fresh' := @Detection.Fresh.read length index detection message fresh
      have unlisted : index ∉ detection.drop := fun member => by
        have bound := fresh.dropped index member
        omega
      have dropped := @mem_detect_drop length (index + 1) (detection.read length index message)
        index
        (Nat.lt_succ_self index) rest
      -- a window that ends here decides what is inserted here
      have windowed {window : Window} {closed : Detection} (kept : closed.drop = detection.drop)
          (reads : detection.read length index message = { closed with window := some window })
          (ends : window.windowEnd = index)
          : (rebuild now (detect length index detection (message :: rest)) index inserted
              (message :: rest)).1
            = message :: synthetics now inserted (pending length window (index + 1) rest)
              ++ stream now length (some window) (index + 1)
                (inserted + (pending length window (index + 1) rest).length) rest := by
        rw [reads] at dropped fresh'
        have pends := @get?_detect_windowEnd length _ _ _ fresh' rfl rest
        rw [ends] at pends
        rw [detect, reads, rebuild_kept (fun member => unlisted (kept ▸ dropped.mp member)) pends,
          ih fresh']
      -- elsewhere nothing is
      have plain {closed : Detection} (reads : detection.read length index message = closed)
          (kept : closed.drop = detection.drop) (settled : closed.Settled index)
          (clear : closed.insertAfter.get? index = none)
          : (rebuild now (detect length index detection (message :: rest)) index inserted
              (message :: rest)).1
            = message :: stream now length closed.window (index + 1) inserted rest := by
        rw [reads] at dropped fresh'
        have inserts := @Detection.Settled.get?_detect length _ _ _ settled (Nat.lt_succ_self index)
          rest
        rw [clear] at inserts
        rw [detect, reads, rebuild_kept (fun member => unlisted (kept ▸ dropped.mp member))
          (congrArg (Option.getD · []) inserts), ih fresh']
        rfl
      have settled : detection.Settled index := fun window open' =>
        Nat.ne_of_lt (fresh.inside window open')
      rw [stream, nextWindow]
      by_cases boundary : isBoundary message = true
      · cases assistant : isAssistant message with
        | true =>
            rw [if_pos rfl]
            exact windowed (Detection.closeWindow_drop length detection)
              (Detection.read_assistant assistant) rfl
        | false =>
            rw [if_neg Bool.false_ne_true, if_pos boundary, if_pos boundary]
            have closes := plain (Detection.read_user boundary assistant)
              (Detection.closeWindow_drop length detection)
              (fun window open' => by rw [Detection.closeWindow_window] at open'; cases open')
              (fresh.closeWindow.inserted index le_rfl)
            rwa [Detection.closeWindow_window] at closes
      · have inner : isBoundary message = false := by simpa using boundary
        have speaks : isAssistant message = false := by
          cases assistant : isAssistant message with
          | false => rfl
          | true => exact absurd (isBoundary_of_isAssistant assistant) boundary
        rw [speaks, if_neg Bool.false_ne_true, if_neg boundary, if_neg boundary]
        cases answers : answered detection.window index message with
        | some window =>
            exact windowed rfl (Detection.read_answer answers) (answered_windowEnd answers)
        | none =>
            cases result : isToolResult message with
            | false =>
                rw [if_neg Bool.false_ne_true]
                exact plain (Detection.read_other inner result) rfl settled
                  (fresh.inserted index le_rfl)
            | true =>
                rw [if_pos rfl]
                have reads := @Detection.read_drop length index detection message result answers
                rw [reads] at dropped fresh'
                have lost : index ∈ (detect length (index + 1)
                    { detection with drop := detection.drop ++ [index] } rest).drop :=
                  dropped.mpr (List.mem_append_right _ (List.mem_singleton_self index))
                have settled' : ({ detection with drop := detection.drop ++ [index] }
                    : Detection).Settled index := settled
                have inserts := @Detection.Settled.get?_detect length _ _ _ settled'
                  (Nat.lt_succ_self index) rest
                have clear : ({ detection with drop := detection.drop ++ [index] }
                    : Detection).insertAfter.get? index = none := fresh.inserted index le_rfl
                rw [clear] at inserts
                rw [detect, reads, rebuild, if_pos lost, inserts]
                exact ih fresh'

theorem Detection.fresh_start : Detection.start.Fresh 0 where
  dropped := fun _ member => nomatch member
  inserted := fun _ _ => rfl
  inside := fun _ open' => nomatch open'
  clear := fun _ open' => nomatch open'

end PiFabric.Compaction
