import PiFabric.Foundation.Outcome
import PiFabric.Records.Lsn

/-! The frontier of an archive's integrity report: the end of the ranges of segments that are found
and follow each other without a hole from the first one on.
-/

namespace PiFabric.Records

open JsString Json

def defaultSegmentSize : Nat := 16 * 1024 * 1024

/-- `checkSegmentSize`, of a whole number that is not negative. -/
def checkSegmentSize (segmentSize : Nat) : Except JsString Nat :=
  if segmentSize = 0 ∨ 0x100000000 % segmentSize ≠ 0 then
    .error (lit "invalid WAL segment size: " ++ digits segmentSize)
  else .ok segmentSize

def isSegmentName (segment : JsString) : Bool :=
  segment.length = 24 && segment.all fun unit => (hexValue unit).isSome

def walSegmentStartLsn (segment : JsString) (segmentSize : Nat) : Except JsString Nat :=
  (checkSegmentSize segmentSize).bind fun size =>
    if isSegmentName segment then
      let logId := hexNumber ((segment.drop 8).take 8)
      let segNo := hexNumber ((segment.drop 16).take 8)
      if 0x100000000 / size ≤ segNo then
        .error (lit "WAL segment number out of range: " ++ segment)
      else .ok (logId * 0x100000000 + segNo * size)
    else .error (lit "malformed WAL segment name: " ++ quote segment)

def isRecord : Json → Bool
  | .object _ => true
  | _ => false

def detailsOf (report : Json) : Option (List Json) :=
  let integrity :=
    match report.field? "integrity" with
    | some inner => if isRecord inner then inner else report
    | none => report
  match integrity.field? "details" with
  | some (.array details) => some details
  | _ => none

def textOf (name : String) (value : Json) : Option JsString :=
  match value.field? name with
  | some (.string text) => some text
  | _ => none

def foundSegments (range : Json) : Option (JsString × JsString) :=
  if textOf "status" range = some (lit "FOUND") then
    (textOf "start_segment" range).bind fun startSegment =>
      (textOf "end_segment" range).map fun endSegment => (startSegment, endSegment)
  else none

/-- The loop of `walgFrontier` over the ranges; `end_` is the end of those before. -/
def frontierEnd (segmentSize : Nat) : Option Nat → List Json → Except JsString (Option Nat)
  | end_, [] => .ok end_
  | end_, range :: rest =>
      match foundSegments range with
      | some (startSegment, endSegment) =>
          (walSegmentStartLsn startSegment segmentSize).bind fun start =>
            if end_.any fun known => known < start then .ok end_
            else
              (walSegmentStartLsn endSegment segmentSize).bind fun last =>
                let rangeEnd := last + segmentSize
                if rangeEnd < start then .ok end_
                else
                  frontierEnd segmentSize
                    (some (end_.elim rangeEnd fun known =>
                      if known < rangeEnd then rangeEnd else known)) rest
      | none => .ok end_

/-- `walgFrontier`; it answers nothing where something throws. -/
def walgFrontier (report : Json) (segmentSize : Nat) : Option JsString :=
  (detailsOf report).bind fun details =>
    match (frontierEnd segmentSize none details).bind fun end_ =>
      end_.elim (.ok none) fun value => (bigIntToLsn value).map some with
    | .ok lsn => lsn
    | .error _ => none

/-- The positions from `start` on below `stop`. -/
structure WalRange where
  start : Nat
  stop : Nat
  ordered : start ≤ stop

def WalRange.Covers (range : WalRange) (position : Nat) : Prop :=
  range.start ≤ position ∧ position < range.stop

def foundRange (segmentSize : Nat) (listed : Json) : Option WalRange :=
  (foundSegments listed).bind fun segments =>
    match walSegmentStartLsn segments.1 segmentSize, walSegmentStartLsn segments.2 segmentSize with
    | .ok start, .ok last =>
        if ordered : start ≤ last + segmentSize then some ⟨start, last + segmentSize, ordered⟩
        else none
    | _, _ => none

def contiguous (before : List WalRange) (range : WalRange) : Bool :=
  before.isEmpty || before.any fun earlier => range.start ≤ earlier.stop

/-- The ranges before the first one that is not found, malformed or not contiguous, after `before`.
-/
def leadingFrom (segmentSize : Nat) (before : List WalRange) : List Json → List WalRange
  | [] => before
  | listed :: rest =>
      match foundRange segmentSize listed with
      | some range =>
          if contiguous before range then leadingFrom segmentSize (before ++ [range]) rest
          else before
      | none => before

def leading (segmentSize : Nat) (details : List Json) : List WalRange :=
  leadingFrom segmentSize [] details

def stops (ranges : List WalRange) : List Nat :=
  ranges.map WalRange.stop

theorem max?_stops_append (before : List WalRange) (range : WalRange)
    : (stops (before ++ [range])).max?
      = some ((stops before).max?.elim range.stop fun known =>
          if known < range.stop then range.stop else known) := by
  have last : stops (before ++ [range]) = stops before ++ [range.stop] := by simp [stops]
  rw [last, List.max?_eq_some_iff]
  cases greatest : (stops before).max? with
  | none =>
      rw [List.max?_eq_none_iff.mp greatest]
      simp
  | some known =>
      obtain ⟨member, above⟩ := List.max?_eq_some_iff.mp greatest
      rw [Option.elim_some]
      refine ⟨?_, fun stop inside => ?_⟩
      · split
        · exact List.mem_append_right _ (List.mem_singleton_self _)
        · exact List.mem_append_left _ member
      · rcases List.mem_append.mp inside with old | new
        · have bound := above stop old
          split <;> omega
        · obtain rfl := List.mem_singleton.mp new
          split <;> omega

/-- A start is past the greatest end exactly if it is not contiguous. -/
theorem any_max?_stops (before : List WalRange) (range : WalRange)
    : ((stops before).max?.any fun known => known < range.start) = !contiguous before range := by
  cases greatest : (stops before).max? with
  | none =>
      have none_ : before = [] := by simpa [stops] using List.max?_eq_none_iff.mp greatest
      rw [none_]
      rfl
  | some known =>
      obtain ⟨member, above⟩ := List.max?_eq_some_iff.mp greatest
      obtain ⟨earlier, inside, rfl⟩ := List.mem_map.mp member
      have some_ : before.isEmpty = false := by
        cases before with
        | nil => cases inside
        | cons => rfl
      rw [contiguous, some_, Bool.false_or, Option.any_some]
      cases reached : before.any fun earlier => decide (range.start ≤ earlier.stop) with
      | true =>
          obtain ⟨other, there, reaches⟩ := List.any_eq_true.mp reached
          have bound := above other.stop (List.mem_map_of_mem there)
          have start := of_decide_eq_true reaches
          exact decide_eq_false (by omega)
      | false =>
          have short := List.any_eq_false.mp reached earlier inside
          simp only [decide_eq_true_eq] at short
          exact decide_eq_true (by omega)

variable {segmentSize : Nat}

/-- A listed range joins the ones before it if it is found, well formed and contiguous. -/
def Joins (segmentSize : Nat) (before : List WalRange) (listed : Json) (range : WalRange) : Prop :=
  foundRange segmentSize listed = some range ∧ contiguous before range = true

variable {before : List WalRange} {listed : Json}

variable {range : WalRange}

theorem leadingFrom_join (joins : Joins segmentSize before listed range) (rest : List Json)
    : leadingFrom segmentSize before (listed :: rest)
      = leadingFrom segmentSize (before ++ [range]) rest := by
  rw [leadingFrom, joins.1]
  exact if_pos joins.2

theorem leadingFrom_hole (hole : ∀ range, ¬Joins segmentSize before listed range) (rest : List Json)
    : leadingFrom segmentSize before (listed :: rest) = before := by
  rw [leadingFrom]
  cases found : foundRange segmentSize listed with
  | none => rfl
  | some range => exact if_neg fun near => hole range ⟨found, near⟩

/-- Ranges only join at the end, by induction over what is listed. -/
theorem length_le_leadingFrom (before : List WalRange) (details : List Json)
    : before.length ≤ (leadingFrom segmentSize before details).length := by
  induction details generalizing before with
  | nil => exact le_rfl
  | cons listed rest ih =>
      by_cases joins : ∃ range, Joins segmentSize before listed range
      · obtain ⟨range, joins⟩ := joins
        have next := ih (before ++ [range])
        rw [List.length_append, List.length_singleton] at next
        rw [leadingFrom_join joins]
        omega
      · rw [leadingFrom_hole (not_exists.mp joins)]

theorem frontierEnd_join (joins : Joins segmentSize before listed range) (rest : List Json)
    : frontierEnd segmentSize (stops before).max? (listed :: rest)
      = frontierEnd segmentSize (stops (before ++ [range])).max? rest := by
  obtain ⟨found, near⟩ := joins
  obtain ⟨names, segments, read⟩ := Option.bind_eq_some_iff.mp found
  have known := any_max?_stops before range
  rw [near, Bool.not_true] at known
  rw [frontierEnd, segments, max?_stops_append]
  split at read
  · next start last from_ ending =>
      split at read
      · next ordered =>
          obtain rfl := Option.some.inj read
          dsimp only at known ⊢
          rw [from_, ending, Except.bind, known, if_neg Bool.false_ne_true, Except.bind,
            if_neg (by omega)]
      · cases read
  · cases read

/-- At a hole the loop ends or throws, whatever is listed after it. -/
theorem frontierEnd_hole (hole : ∀ range, ¬Joins segmentSize before listed range)
    : ∃ outcome, (∀ rest, frontierEnd segmentSize (stops before).max? (listed :: rest) = outcome)
      ∧ ∀ end_, outcome = .ok end_ → end_ = (stops before).max? := by
  have ended : ∀ end_, Except.ok (stops before).max? = (.ok end_ : Except JsString _) →
      end_ = (stops before).max? := fun end_ same => (Except.ok.inj same).symm
  simp only [frontierEnd]
  cases segments : foundSegments listed with
  | none => exact ⟨_, fun _ => rfl, ended⟩
  | some names =>
      obtain ⟨startSegment, endSegment⟩ := names
      cases from_ : walSegmentStartLsn startSegment segmentSize with
      | error message => exact ⟨.error message, fun _ => by simp only [from_, Except.bind], by simp⟩
      | ok start =>
          by_cases behind : ((stops before).max?.any fun known => known < start) = true
          · exact ⟨_, fun _ => by simp only [from_, Except.bind, if_pos behind], ended⟩
          · cases ending : walSegmentStartLsn endSegment segmentSize with
            | error message =>
                exact ⟨.error message, fun _ => by
                  simp only [from_, ending, Except.bind, if_neg behind], by simp⟩
            | ok last =>
                by_cases inverted : last + segmentSize < start
                · exact ⟨_, fun _ => by
                    simp only [from_, ending, Except.bind, if_neg behind, if_pos inverted], ended⟩
                · -- a range that is well formed and contiguous is no hole
                  have order : start ≤ last + segmentSize := by omega
                  have known := any_max?_stops before ⟨start, last + segmentSize, order⟩
                  refine absurd ⟨?_, ?_⟩ (hole ⟨start, last + segmentSize, order⟩)
                  · rw [foundRange, segments, Option.bind_some, from_, ending]
                    exact dif_pos order
                  · rw [Bool.eq_false_iff.mpr behind] at known
                    simpa using known

/-- The loop gives the end of the ranges before the first hole, by induction over the ranges listed.
-/
theorem frontierEnd_eq {details : List Json} {end_ : Option Nat}
    (ran : frontierEnd segmentSize (stops before).max? details = .ok end_)
    : end_ = (stops (leadingFrom segmentSize before details)).max? := by
  induction details generalizing before with
  | nil => exact (Except.ok.inj ran).symm
  | cons listed rest ih =>
      by_cases joins : ∃ range, Joins segmentSize before listed range
      · obtain ⟨range, joins⟩ := joins
        rw [frontierEnd_join joins] at ran
        rw [leadingFrom_join joins]
        exact ih ran
      · have hole := not_exists.mp joins
        obtain ⟨outcome, same, ended⟩ := frontierEnd_hole hole
        rw [same] at ran
        rw [leadingFrom_hole hole]
        exact ended end_ ran

/-- What is listed after the first hole makes no difference, by induction over what is before it. -/
theorem frontierEnd_after_hole {front : List Json} {hole : Json} {rest : List Json}
    (first : (leadingFrom segmentSize before (front ++ hole :: rest)).length
      = before.length + front.length) (others : List Json)
    : frontierEnd segmentSize (stops before).max? (front ++ hole :: others)
      = frontierEnd segmentSize (stops before).max? (front ++ hole :: rest) := by
  induction front generalizing before with
  | nil =>
      have gap : ∀ range, ¬Joins segmentSize before hole range := by
        intro range joins
        have more := @length_le_leadingFrom segmentSize (before ++ [range]) rest
        rw [List.nil_append, leadingFrom_join joins, List.length_nil] at first
        rw [List.length_append, List.length_singleton] at more
        omega
      obtain ⟨outcome, same, _⟩ := frontierEnd_hole gap
      rw [List.nil_append, List.nil_append, same, same]
  | cons listed front ih =>
      rw [List.cons_append] at first
      by_cases joins : ∃ range, Joins segmentSize before listed range
      · obtain ⟨range, joins⟩ := joins
        rw [leadingFrom_join joins, List.length_cons] at first
        rw [List.cons_append, List.cons_append, frontierEnd_join joins, frontierEnd_join joins]
        refine ih ?_
        rw [first, List.length_append, List.length_singleton]
        omega
      · rw [leadingFrom_hole (not_exists.mp joins), List.length_cons] at first
        omega

/-- No position from `start` on is missed below the end of a range. -/
def Gapless (start : Nat) (ranges : List WalRange) : Prop :=
  ∀ position, start ≤ position → (∃ range ∈ ranges, position < range.stop) →
    ∃ range ∈ ranges, range.Covers position

theorem Gapless.join {start : Nat} {ranges : List WalRange} (gapless : Gapless start ranges)
    (near : ∃ earlier ∈ ranges, range.start ≤ earlier.stop)
    : Gapless start (ranges ++ [range]) := by
  rintro position above ⟨other, member, below⟩
  have old : (∃ earlier ∈ ranges, position < earlier.stop) →
      ∃ range' ∈ ranges ++ [range], range'.Covers position := fun known => by
    obtain ⟨earlier, inside, covers⟩ := gapless position above known
    exact ⟨earlier, List.mem_append_left _ inside, covers⟩
  rcases List.mem_append.mp member with inside | new
  · exact old ⟨other, inside, below⟩
  · obtain rfl := List.mem_singleton.mp new
    by_cases within : other.start ≤ position
    · exact ⟨other, member, within, below⟩
    · obtain ⟨earlier, inside, reaches⟩ := near
      exact old ⟨earlier, inside, by omega⟩

/-- The ranges before the first hole have no gap, by induction over what is listed. -/
theorem gapless_leadingFrom {start : Nat} (some_ : before ≠ []) (gapless : Gapless start before)
    (details : List Json)
    : Gapless start (leadingFrom segmentSize before details)
      ∧ before <+: leadingFrom segmentSize before details := by
  induction details generalizing before with
  | nil => exact ⟨gapless, List.prefix_refl _⟩
  | cons listed rest ih =>
      by_cases joins : ∃ range, Joins segmentSize before listed range
      · obtain ⟨range, joins⟩ := joins
        have near : ∃ earlier ∈ before, range.start ≤ earlier.stop := by
          have reached := joins.2
          rw [contiguous, List.isEmpty_eq_false_iff.mpr some_, Bool.false_or,
            List.any_eq_true] at reached
          obtain ⟨earlier, inside, reaches⟩ := reached
          exact ⟨earlier, inside, of_decide_eq_true reaches⟩
        obtain ⟨whole, front⟩ := ih (by simp) (gapless.join near)
        rw [leadingFrom_join joins]
        exact ⟨whole, (List.prefix_append _ _).trans front⟩
      · rw [leadingFrom_hole (not_exists.mp joins)]
        exact ⟨gapless, List.prefix_refl _⟩

/-- `frontier` is the greatest bound below which the ranges miss no position from `start` on. -/
structure EndsAt (start frontier : Nat) (ranges : List WalRange) : Prop where
  covered : ∀ position, start ≤ position → position < frontier →
    ∃ range ∈ ranges, range.Covers position
  largest : ∀ bound,
    (∀ position, start ≤ position → position < bound → ∃ range ∈ ranges, range.Covers position) →
    bound ≤ frontier

/-- The greatest end of ranges without a gap, from the start of one of them on. -/
theorem Gapless.endsAt {ranges : List WalRange} {first : WalRange} {frontier : Nat}
    (gapless : Gapless first.start ranges) (member : first ∈ ranges)
    (greatest : (stops ranges).max? = some frontier)
    : EndsAt first.start frontier ranges := by
  obtain ⟨ends, above⟩ := List.max?_eq_some_iff.mp greatest
  obtain ⟨last, inside, rfl⟩ := List.mem_map.mp ends
  refine ⟨fun position from_ below => gapless position from_ ⟨last, inside, below⟩, ?_⟩
  intro bound covered
  by_contra past
  have order := first.ordered
  have top := above first.stop (List.mem_map_of_mem member)
  obtain ⟨range, there, covers⟩ := covered last.stop (by omega) (by omega)
  have most := above range.stop (List.mem_map_of_mem there)
  have less := covers.2
  omega

/-- The frontier of a report is the end of the positions that its ranges before the first hole cover
without a gap, from the first one's start on. It is a position of 64 bits, and what the report lists
after the hole does not change it.
-/
theorem walgFrontier_is_gap_free (report : Json) (segmentSize : Nat) (lsn : JsString)
    (returned : walgFrontier report segmentSize = some lsn)
    : ∃ details first frontier, detailsOf report = some details
      ∧ details.head?.bind (foundRange segmentSize) = some first
      ∧ lsnToBigInt lsn = .ok frontier ∧ frontier ≤ 2 ^ 64 - 1
      ∧ EndsAt first.start frontier (leading segmentSize details)
      ∧ ∀ front hole rest, details = front ++ hole :: rest →
        front.length = (leading segmentSize details).length →
        ∀ others report', detailsOf report' = some (front ++ hole :: others) →
          walgFrontier report' segmentSize = some lsn := by
  obtain ⟨details, listed, outcome⟩ := Option.bind_eq_some_iff.mp returned
  split at outcome
  · next result answered =>
      subst outcome
      obtain ⟨end_, ran, written⟩ := Outcome.bind_eq_ok.mp answered
      have greatest := @frontierEnd_eq segmentSize [] details end_ ran
      cases end_ with
      | none => cases written
      | some frontier =>
          rw [Option.elim_some] at written
          obtain ⟨text, wrote, rfl⟩ : ∃ text, bigIntToLsn frontier = .ok text ∧ text = lsn := by
            cases wrote : bigIntToLsn frontier with
            | error _ => rw [wrote] at written; cases written
            | ok text =>
                rw [wrote] at written
                exact ⟨text, rfl, Option.some.inj (Except.ok.inj written)⟩
          have small : frontier ≤ maxLsn := by
            by_contra large
            rw [bigIntToLsn, if_pos (by omega)] at wrote
            cases wrote
          obtain ⟨same, wrote', read⟩ := lsnToBigInt_bigIntToLsn small
          obtain rfl := Except.ok.inj (wrote.symm.trans wrote')
          have firsts : ∃ first, details.head?.bind (foundRange segmentSize) = some first
              ∧ EndsAt first.start frontier (leading segmentSize details) := by
            cases details with
            | nil => cases greatest
            | cons head rest =>
                by_cases joins : ∃ range, Joins segmentSize [] head range
                · obtain ⟨first, joins⟩ := joins
                  have single : Gapless first.start [first] := by
                    rintro position above ⟨range, member, below⟩
                    obtain rfl := List.mem_singleton.mp member
                    exact ⟨range, member, above, below⟩
                  obtain ⟨gapless, front⟩ := @gapless_leadingFrom segmentSize _ _
                    (List.cons_ne_nil first []) single rest
                  have whole : leading segmentSize (head :: rest)
                      = leadingFrom segmentSize [first] rest := leadingFrom_join joins rest
                  rw [← leading, whole] at greatest
                  refine ⟨first, joins.1, ?_⟩
                  rw [whole]
                  exact gapless.endsAt (front.subset (List.mem_singleton_self _)) greatest.symm
                · rw [leadingFrom_hole (not_exists.mp joins)] at greatest
                  cases greatest
          obtain ⟨first, found, ends⟩ := firsts
          refine ⟨details, first, frontier, listed, found, read, small, ends, ?_⟩
          rintro front hole rest rfl before others report' listed'
          have unchanged := @frontierEnd_after_hole segmentSize [] front hole rest
            (by rw [List.length_nil, Nat.zero_add]; exact before.symm) others
          rw [walgFrontier, listed', Option.bind_some]
          have none_ : (stops []).max? = none := rfl
          rw [none_] at unchanged
          rw [unchanged, ran, Except.bind, Option.elim_some, wrote]
          rfl
  · cases outcome

def rangeEntry (startSegment endSegment status : String) : Json :=
  .object [(lit "start_segment", .string (lit startSegment)),
    (lit "end_segment", .string (lit endSegment)), (lit "status", .string (lit status))]

def lostMiddle : Json :=
  .object [(lit "integrity", .object [(lit "status", .string (lit "WARNING")),
    (lit "details", .array [
      rangeEntry "000000010000000000000001" "000000010000000000000004" "FOUND",
      rangeEntry "000000010000000000000005" "000000010000000000000006" "MISSING_LOST",
      rangeEntry "000000010000000000000007" "000000010000000000000020" "FOUND"])])]

/-- The frontier of that report stands before the lost range. -/
theorem walgFrontier_is_gap_free_lost_middle
    : ∃ details first frontier, detailsOf lostMiddle = some details
      ∧ details.head?.bind (foundRange defaultSegmentSize) = some first
      ∧ lsnToBigInt (lit "0/5000000") = .ok frontier ∧ frontier ≤ 2 ^ 64 - 1
      ∧ EndsAt first.start frontier (leading defaultSegmentSize details)
      ∧ ∀ front hole rest, details = front ++ hole :: rest →
        front.length = (leading defaultSegmentSize details).length →
        ∀ others report', detailsOf report' = some (front ++ hole :: others) →
          walgFrontier report' defaultSegmentSize = some (lit "0/5000000") :=
  walgFrontier_is_gap_free lostMiddle defaultSegmentSize (lit "0/5000000") (by decide +kernel)

end PiFabric.Records
