import PiFabric.Foundation.Outcome
import PiFabric.Sessions.Receipts

/-! However a file grows between the calls, a scan that goes on from a cache is a full scan. -/

namespace PiFabric.Sessions

open JsString LineLog Outcome

/-- Of what comes before, only the last bytes matter. -/
theorem lastBytes_append (first second : Bytes)
    : lastBytes (lastBytes first ++ second) = lastBytes (first ++ second) := by
  unfold lastBytes
  rcases Nat.le_total first.length tailBytes with short | long
  · rw [Nat.sub_eq_zero_of_le short, List.drop_zero]
  · have front : first.length - tailBytes ≤ first.length := Nat.sub_le _ _
    have whole : (first ++ second).length - tailBytes
        = first.length - tailBytes + second.length := by
      rw [List.length_append]
      omega
    have part : (first.drop (first.length - tailBytes) ++ second).length - tailBytes
        = second.length := by
      rw [List.length_append, List.length_drop]
      omega
    rw [whole, part, ← List.drop_drop, List.drop_append_of_le_length front]

theorem lastBytes_length (bytes : Bytes) : (lastBytes bytes).length ≤ bytes.length := by
  rw [lastBytes, List.length_drop]
  exact Nat.sub_le _ _

theorem tailMatches_grown {bytes more : Bytes} {offset : Nat} (inside : offset ≤ bytes.length)
    : tailMatches (bytes ++ more) offset (lastBytes (bytes.take offset)) = .ok true := by
  have size : (bytes.take offset).length = offset := List.length_take_of_le inside
  have shorter : (lastBytes (bytes.take offset)).length ≤ offset :=
    (lastBytes_length _).trans_eq size
  have room : offset - (lastBytes (bytes.take offset)).length
      + (lastBytes (bytes.take offset)).length ≤ (bytes ++ more).length := by
    rw [Nat.sub_add_cancel shorter, List.length_append]
    omega
  have start : offset - (lastBytes (bytes.take offset)).length = offset - tailBytes := by
    rw [lastBytes, List.length_drop, size]
    omega
  have read : ((bytes ++ more).drop (offset - tailBytes)).take
      (lastBytes (bytes.take offset)).length = lastBytes (bytes.take offset) := by
    have count : (lastBytes (bytes.take offset)).length = offset - (offset - tailBytes) := by
      rw [lastBytes, List.length_drop, size]
    rw [count, lastBytes, size, ← List.drop_take, List.take_append_of_le_length inside]
  unfold tailMatches readAt
  rw [if_pos room, start, read, ok_bind]
  exact congrArg Except.ok (decide_eq_true rfl)

section

variable {ι ν : Type} {filters : Filters ι ν} {choice : Choice ι}

/-- The lines that end in a view, the first one with what came before it. -/
def resumed (before : Bytes) : List Bytes → List Bytes
  | [] => []
  | line :: rest => (before ++ line) :: rest

theorem takeLines_eq (start : Nat) (lines : List Bytes) (progress : Progress ν)
    : takeLines filters choice start lines progress
      = ((resumed progress.carry.flatten lines).foldlM (addLine filters choice)
          progress.snapshot).map fun snapshot =>
        (start + (join lines).length,
          { progress with
            snapshot
            carry := if lines = [] then progress.carry else []
            offset := if lines = [] then progress.offset
              else progress.position + (start + (join lines).length) }) := by
  induction lines generalizing start progress with
  | nil => rfl
  | cons line rest ih =>
    have whole : (progress.carry ++ [line]).flatten = progress.carry.flatten ++ line := by
      rw [List.flatten_append, List.flatten_singleton]
    unfold takeLines resumed
    dsimp only
    rw [whole, List.foldlM_cons]
    cases added : addLine filters choice progress.snapshot (progress.carry.flatten ++ line) with
    | error error => rfl
    | ok snapshot =>
      rw [ok_bind, ok_bind, ih]
      have total : start + line.length + 1 + (join rest).length
          = start + (join (line :: rest)).length := by
        rw [join_cons, List.length_append, List.length_cons]
        omega
      have same : resumed ([] : List Bytes).flatten rest = rest := by
        cases rest <;> rfl
      have offset : (if rest = [] then progress.position + (start + line.length + 1)
            else progress.position + (start + line.length + 1 + (join rest).length))
          = progress.position + (start + (join (line :: rest)).length) := by
        by_cases none_left : rest = []
        · rw [if_pos none_left, ← total, none_left]
          rfl
        · rw [if_neg none_left, total]
      have carry : (if rest = [] then ([] : List Bytes) else []) = [] := ite_self _
      dsimp only
      rw [same, offset, total, carry, if_neg (List.cons_ne_nil _ _),
        if_neg (List.cons_ne_nil _ _)]

structure Reading (filters : Filters ι ν) (choice : Choice ι) (bytes : Bytes)
    (progress : Progress ν) : Prop where
  position : progress.position = bytes.length
  snapshot : fullScan filters choice bytes = .ok progress.snapshot
  carry : progress.carry.flatten = (split bytes).2
  offset : progress.offset + (split bytes).2.length = bytes.length
  tail : progress.tail = lastBytes (bytes.take progress.offset)
  endTail : progress.endTail = lastBytes bytes

theorem reading_start : Reading filters choice [] .start :=
  ⟨rfl, rfl, rfl, rfl, rfl, rfl⟩

/-- The lines of a file that grows: the new ones come after the old ones. -/
theorem fullScan_append (bytes view : Bytes)
    : fullScan filters choice (bytes ++ view)
      = fullScan filters choice bytes >>= fun snapshot =>
          (resumed (split bytes).2 (split view).1).foldlM (addLine filters choice) snapshot := by
  have lines : (split (bytes ++ view)).1
      = (split bytes).1 ++ resumed (split bytes).2 (split view).1 := by
    rw [split_append]
    cases (split view).1 with
    | nil => exact (List.append_nil _).symm
    | cons line more => rfl
  rw [fullScan, lines, List.foldlM_append]
  rfl

theorem split_append_snd (bytes view : Bytes)
    : (split (bytes ++ view)).2
      = if (split view).1 = [] then (split bytes).2 ++ view else (split view).2 := by
  rw [split_append]
  cases lines : (split view).1 with
  | nil =>
    have all := join_split view
    rw [lines, join_nil, List.nil_append] at all
    rw [if_pos rfl, all]
  | cons line more => rw [if_neg (List.cons_ne_nil _ _)]

theorem Reading.view {bytes : Bytes} {progress : Progress ν}
    (reading : Reading filters choice bytes progress) (view : Bytes)
    : (∀ next, takeView filters choice view progress = .ok next →
        Reading filters choice (bytes ++ view) next)
      ∧ ∀ error, takeView filters choice view progress = .error error →
        fullScan filters choice (bytes ++ view) = .error error := by
  have lines : fullScan filters choice (bytes ++ view)
      = (resumed (split bytes).2 (split view).1).foldlM (addLine filters choice)
          progress.snapshot := by
    rw [fullScan_append, reading.snapshot, ok_bind]
  unfold takeView
  rw [takeLines_eq, reading.carry, lines]
  cases added : (resumed (split bytes).2 (split view).1).foldlM (addLine filters choice)
      progress.snapshot with
  | error error =>
    refine ⟨fun next given => ?_, fun other given => ?_⟩
    · cases given
    · injection given with same
      rw [same]
  | ok snapshot =>
    refine ⟨fun next given => ?_, fun other given => ?_⟩
    · injection given with same
      subst same
      have dropped : view.drop (join (split view).1).length = (split view).2 := by
        have front := congrArg (List.drop (join (split view).1).length) (join_split view)
        rw [List.drop_left] at front
        exact front.symm
      have inside : progress.offset ≤ bytes.length := by
        have total := reading.offset
        omega
      have sizes := length_split view
      have rest := split_append_snd bytes view
      dsimp only
      rw [Nat.zero_add]
      by_cases unended : (split view).1 = []
      · have all : (split view).2 = view := by
          conv_rhs => rw [← join_split view, unended]
          rfl
        rw [if_pos unended] at rest
        rw [unended, join_nil, List.length_nil, if_neg (Nat.lt_irrefl 0), if_pos rfl, if_pos rfl]
        refine ⟨?_, ?_, ?_, ?_, ?_, ?_⟩
        · rw [List.length_append, reading.position]
        · rw [lines, added]
        · rw [rest]
          dsimp only
          split
          · rw [List.flatten_append, reading.carry, List.flatten_singleton, List.drop_zero]
          · have none_left : view = [] := List.length_eq_zero_iff.1 (by omega)
            rw [none_left, List.append_nil, reading.carry]
        · rw [rest, List.length_append, List.length_append, ← Nat.add_assoc, reading.offset]
        · rw [reading.tail, List.take_append_of_le_length inside]
        · rw [reading.endTail, lastBytes_append]
      · have some_ : 0 < (join (split view).1).length := by
          cases ended : (split view).1 with
          | nil => exact absurd ended unended
          | cons line more =>
            rw [join_cons, List.length_append, List.length_cons]
            omega
        rw [if_neg unended] at rest
        rw [if_neg unended, if_neg unended, if_pos some_]
        refine ⟨?_, ?_, ?_, ?_, ?_, ?_⟩
        · rw [List.length_append, reading.position]
        · rw [lines, added]
        · rw [rest, dropped, List.nil_append]
          split
          · exact List.flatten_singleton
          · have none_left : (split view).2 = [] := List.length_eq_zero_iff.1 (by omega)
            rw [none_left]
            rfl
        · rw [rest, List.length_append, reading.position]
          dsimp only
          omega
        · rw [reading.endTail, lastBytes_append, reading.position, List.take_length_add_append]
        · dsimp only
          rw [reading.endTail, lastBytes_append]
    · cases given

/-- A fresh scan that throws goes on throwing when the file grows. -/
theorem fullScan_error {bytes : Bytes} {error : Thrown}
    (failed : fullScan filters choice bytes = .error error) (more : Bytes)
    : fullScan filters choice (bytes ++ more) = .error error := by
  rw [fullScan_append, failed]
  rfl

theorem scanOn_reading {file : Bytes} {size : Nat} (inside : size ≤ file.length) {fuel : Nat}
    {progress : Progress ν} (enough : size - progress.position ≤ fuel)
    (within : progress.position ≤ size)
    (reading : Reading filters choice (file.take progress.position) progress)
    : (∀ last, scanOn filters choice file size fuel progress = .ok last →
        Reading filters choice (file.take size) last)
      ∧ ∀ error, scanOn filters choice file size fuel progress = .error error →
        fullScan filters choice (file.take size) = .error error := by
  induction fuel generalizing progress with
  | zero =>
    have done : progress.position = size := by omega
    rw [done] at reading
    refine ⟨fun last given => ?_, fun error given => ?_⟩
    · injection given with same
      rwa [← same]
    · cases given
  | succ fuel ih =>
    unfold scanOn
    by_cases more : progress.position < size
    · have length : min bufferBytes (size - progress.position) ≤ size - progress.position :=
        min_le_right _ _
      have some_ : 0 < min bufferBytes (size - progress.position) :=
        lt_min (by decide) (by omega)
      have room : progress.position + min bufferBytes (size - progress.position) ≤ file.length := by
        omega
      rw [if_pos more, readAt, if_pos room, ok_bind]
      have joined : file.take progress.position
            ++ (file.drop progress.position).take (min bufferBytes (size - progress.position))
          = file.take (progress.position + min bufferBytes (size - progress.position)) :=
        (List.take_add ..).symm
      obtain ⟨taken, failed⟩ := reading.view
        ((file.drop progress.position).take (min bufferBytes (size - progress.position)))
      rw [joined] at taken failed
      cases viewed : takeView filters choice
          ((file.drop progress.position).take (min bufferBytes (size - progress.position)))
          progress with
      | error error =>
        refine ⟨fun last given => ?_, fun other given => ?_⟩
        · cases given
        · injection given with same
          subst same
          have rest : file.take size
              = file.take (progress.position + min bufferBytes (size - progress.position))
                ++ (file.drop (progress.position
                  + min bufferBytes (size - progress.position))).take
                  (size - (progress.position + min bufferBytes (size - progress.position))) := by
            rw [← List.take_add]
            congr 1
            omega
          rw [rest]
          exact fullScan_error (failed _ viewed) _
      | ok next =>
        have on := taken next viewed
        have position : next.position
            = progress.position + min bufferBytes (size - progress.position) := by
          rw [on.position, List.length_take_of_le room]
        rw [← position] at on
        exact ih (by omega) (by omega) on
    · have done : progress.position = size := by omega
      rw [if_neg more]
      rw [done] at reading
      refine ⟨fun last given => ?_, fun error given => ?_⟩
      · injection given with same
        rwa [← same]
      · cases given

structure SessionFile where
  dev : Nat
  ino : Nat
  bytes : Bytes
  mtimeMs : Int
  ctimeMs : Int

def SessionFile.stat (file : SessionFile) : Stats where
  dev := file.dev
  ino := file.ino
  size := file.bytes.length
  mtimeMs := file.mtimeMs
  ctimeMs := file.ctimeMs

def Visited (filters : Filters ι ν) (path : JsString) (choice : Choice ι) (file : SessionFile)
    : Except Thrown (ReceiptCache ι ν) → Prop
  | .ok cache =>
    cache.file = path ∧ (cache.stat.dev, cache.stat.ino) = (file.dev, file.ino)
      ∧ Reading filters cache.choice file.bytes cache.progress
      ∧ fullScan filters choice file.bytes = .ok cache.snapshot
  | .error error => fullScan filters choice file.bytes = .error error

/-- A scan that starts from what a file held before it grew reads the whole of it. -/
theorem rescan_visited (path : JsString) (file : SessionFile) (more : Bytes) {seen : Bytes}
    (front : seen <+: file.bytes) {start : Progress ν}
    (reading : Reading filters choice seen start)
    : Visited filters path choice file
        (rescan filters path choice file.stat (file.bytes ++ more) start) := by
  have short := front.length_le
  have size : file.stat.size = file.bytes.length := rfl
  have whole : (file.bytes ++ more).take file.stat.size = file.bytes := List.take_left
  have part : (file.bytes ++ more).take start.position = seen := by
    obtain ⟨rest, grown⟩ := front
    rw [reading.position, ← grown, List.append_assoc]
    exact List.take_left
  have inside : file.stat.size ≤ (file.bytes ++ more).length := by
    rw [size, List.length_append]
    omega
  have within : start.position ≤ file.stat.size := by
    rw [reading.position, size]
    exact short
  rw [← part] at reading
  obtain ⟨read, failed⟩ := scanOn_reading inside (Nat.sub_le _ _) within reading
  rw [whole] at read failed
  unfold rescan
  cases scanned : scanOn filters choice (file.bytes ++ more) file.stat.size file.stat.size
      start with
  | error error => exact failed error scanned
  | ok last =>
    have on := read last scanned
    exact ⟨rfl, rfl, ⟨size, on.snapshot, on.carry, on.offset, on.tail, on.endTail⟩, on.snapshot⟩

/-- The guards of a cache hold in a file that has only grown. -/
theorem holds_grown {cache : ReceiptCache ι ν} {seen : Bytes}
    (reading : Reading filters choice seen cache.progress) (more : Bytes)
    : cache.holds (seen ++ more) = .ok true := by
  have inside : cache.offset ≤ seen.length := by
    have total : cache.offset + (split seen).2.length = seen.length := reading.offset
    omega
  have size : cache.stat.size = seen.length := reading.position
  have tail : cache.tail = lastBytes (seen.take cache.offset) := reading.tail
  have endTail : cache.partialTail = lastBytes (seen.take seen.length) := by
    rw [List.take_length]
    exact reading.endTail
  unfold ReceiptCache.holds
  rw [tail, tailMatches_grown inside, ok_bind, size, endTail,
    tailMatches_grown (Nat.le_refl seen.length), if_pos rfl]
  exact ite_self (Except.ok true)

end

/-- The files by their paths, the inodes that there have been, and the cache of a manager. -/
structure Disk (ι ν : Type) where
  files : JsString → Option SessionFile
  used : List (Nat × Nat)
  cache : Option (ReceiptCache ι ν)

section

variable {ι ν : Type} (filters : Filters ι ν)

namespace Disk

def bytesAt (disk : Disk ι ν) (path : JsString) : Bytes :=
  ((disk.files path).map SessionFile.bytes).getD []

def grow (disk : Disk ι ν) (path : JsString) (more : Bytes) (mtimeMs ctimeMs : Int) : Disk ι ν :=
  { disk with
    files := Function.update disk.files path ((disk.files path).map fun file =>
      { file with bytes := file.bytes ++ more, mtimeMs, ctimeMs }) }

/-- Another file takes the place of a file, or of none. -/
def replace (disk : Disk ι ν) (path : JsString) (file : SessionFile) : Disk ι ν :=
  { disk with
    files := Function.update disk.files path (some file)
    used := (file.dev, file.ino) :: disk.used }

def remove (disk : Disk ι ν) (path : JsString) : Disk ι ν :=
  { disk with files := Function.update disk.files path none }

end Disk

/-- What a cache knows: the bytes that it has read are still there, in every file of its path that
has its inode.
-/
structure Knows (disk : Disk ι ν) (cache : ReceiptCache ι ν) (seen : Bytes) : Prop where
  reading : Reading filters cache.choice seen cache.progress
  used : (cache.stat.dev, cache.stat.ino) ∈ disk.used
  grown : ∀ file, disk.files cache.file = some file → file.dev = cache.stat.dev →
    file.ino = cache.stat.ino → seen <+: file.bytes

/-- What holds between the steps of a run. -/
structure Settled (disk : Disk ι ν) : Prop where
  used : ∀ path file, disk.files path = some file → (file.dev, file.ino) ∈ disk.used
  knows : ∀ cache, disk.cache = some cache → ∃ seen, Knows filters disk cache seen

variable {filters}

variable {disk : Disk ι ν} {file : SessionFile}

theorem files_grow {path other : JsString} {more : Bytes} {mtimeMs ctimeMs : Int}
    (there : (disk.grow path more mtimeMs ctimeMs).files other = some file)
    : ∃ old, disk.files other = some old ∧ file.dev = old.dev ∧ file.ino = old.ino
        ∧ old.bytes <+: file.bytes := by
  unfold Disk.grow at there
  dsimp only at there
  by_cases same : other = path
  · subst same
    rw [Function.update_self] at there
    obtain ⟨old, was, rfl⟩ := Option.map_eq_some_iff.1 there
    exact ⟨old, was, rfl, rfl, List.prefix_append _ _⟩
  · rw [Function.update_of_ne same] at there
    exact ⟨file, there, rfl, rfl, List.prefix_refl _⟩

theorem Settled.grow (settled : Settled filters disk) (path : JsString) (more : Bytes)
    (mtimeMs ctimeMs : Int)
    : Settled filters (disk.grow path more mtimeMs ctimeMs) := by
  refine ⟨fun other file there => ?_, fun cache kept => ?_⟩
  · obtain ⟨old, was, dev, ino, -⟩ := files_grow there
    rw [dev, ino]
    exact settled.used other old was
  · obtain ⟨seen, knows⟩ := settled.knows cache kept
    refine ⟨seen, knows.reading, knows.used, fun file there dev ino => ?_⟩
    obtain ⟨old, was, dev', ino', grown⟩ := files_grow there
    exact (knows.grown old was (dev'.symm.trans dev) (ino'.symm.trans ino)).trans grown

theorem Settled.replace (settled : Settled filters disk) (path : JsString)
    (another : (file.dev, file.ino) ∉ disk.used)
    : Settled filters (disk.replace path file) := by
  unfold Disk.replace
  refine ⟨fun other held there => ?_, fun cache kept => ?_⟩
  · dsimp only at there ⊢
    by_cases same : other = path
    · subst same
      rw [Function.update_self] at there
      rw [Option.some.inj there]
      exact List.mem_cons_self
    · rw [Function.update_of_ne same] at there
      exact List.mem_cons_of_mem _ (settled.used other held there)
  · obtain ⟨seen, knows⟩ := settled.knows cache kept
    refine ⟨seen, knows.reading, List.mem_cons_of_mem _ knows.used, fun held there dev ino => ?_⟩
    dsimp only at there
    by_cases same : cache.file = path
    · rw [same, Function.update_self] at there
      rw [← Option.some.inj there] at dev ino
      rw [dev, ino] at another
      exact absurd knows.used another
    · rw [Function.update_of_ne same] at there
      exact knows.grown held there dev ino

theorem Settled.remove (settled : Settled filters disk) (path : JsString)
    : Settled filters (disk.remove path) := by
  unfold Disk.remove
  have kept {other : JsString} {file : SessionFile}
      (there : Function.update disk.files path none other = some file)
      : disk.files other = some file := by
    by_cases same : other = path
    · rw [same, Function.update_self] at there
      cases there
    · rwa [Function.update_of_ne same] at there
  refine ⟨fun other file there => settled.used other file (kept there), fun cache held => ?_⟩
  obtain ⟨seen, knows⟩ := settled.knows cache held
  exact ⟨seen, knows.reading, knows.used, fun file there => knows.grown file (kept there)⟩

variable [DecidableEq ι] (filters)

/-- A call for a path while its file grows by `more`: the cache it leaves, and what it returns. -/
def Disk.snapshot (disk : Disk ι ν) (path : JsString) (choice : Choice ι) (more : Bytes)
    (interrupted : Option Thrown)
    : Option (ReceiptCache ι ν) × Except Thrown (SessionReceiptSnapshot ν) :=
  confirmedSessionReceiptSnapshot filters disk.cache path choice
    ((disk.files path).map fun file => ⟨file.stat, file.bytes ++ more⟩) interrupted

/-- A step of a run: a file grows, is replaced by one with another inode or is removed, or a call
with any filters runs while its file grows, whether or not something interrupts it.
-/
inductive DiskStep : Disk ι ν → Disk ι ν → Prop
  | grow (disk : Disk ι ν) (path : JsString) (more : Bytes) (mtimeMs ctimeMs : Int)
    : DiskStep disk (disk.grow path more mtimeMs ctimeMs)
  | replace (disk : Disk ι ν) (path : JsString) (file : SessionFile)
      (another : (file.dev, file.ino) ∉ disk.used)
    : DiskStep disk (disk.replace path file)
  | remove (disk : Disk ι ν) (path : JsString) : DiskStep disk (disk.remove path)
  | call (disk : Disk ι ν) (path : JsString) (choice : Choice ι) (more : Bytes)
      (interrupted : Option Thrown) (mtimeMs ctimeMs : Int)
    : DiskStep disk
        { disk.grow path more mtimeMs ctimeMs with
          cache := (disk.snapshot filters path choice more interrupted).1 }

/-- The states of the runs that start without files. -/
inductive OnDisk : Disk ι ν → Prop
  | start : OnDisk ⟨fun _ => none, [], none⟩
  | next {before after : Disk ι ν} (reached : OnDisk before)
      (step : DiskStep filters before after)
    : OnDisk after

variable {filters}

/-- A visit goes on from the cache where that is of the same inode, and reads the file either way.
-/
theorem Settled.visited (settled : Settled filters disk) {path : JsString}
    (there : disk.files path = some file) (choice : Choice ι) (more : Bytes)
    : Visited filters path choice file
        (visit filters disk.cache path choice file.stat (file.bytes ++ more)) := by
  unfold visit
  cases was : ReceiptCache.previous disk.cache path choice file.stat with
  | none => exact rescan_visited path file more List.nil_prefix reading_start
  | some previous =>
    obtain ⟨kept, same⟩ := Option.filter_eq_some_iff.1 was
    obtain ⟨rfl, rfl, dev, ino, -⟩ := of_decide_eq_true same
    obtain ⟨seen, knows⟩ := settled.knows previous kept
    have front := knows.grown file there dev.symm ino.symm
    cases unchanged : previous.unchanged file.stat with
    | true =>
      have sizes : file.stat.size = previous.stat.size := (of_decide_eq_true unchanged).1
      have whole : seen = file.bytes :=
        front.eq_of_length (knows.reading.position.symm.trans sizes.symm)
      rw [whole] at knows
      dsimp only
      rw [unchanged, if_pos rfl]
      exact ⟨rfl, Prod.ext dev ino, knows.reading, knows.reading.snapshot⟩
    | false =>
      have held : previous.holds (file.bytes ++ more) = .ok true := by
        obtain ⟨rest, grown⟩ := front
        rw [← grown, List.append_assoc]
        exact holds_grown knows.reading _
      dsimp only
      rw [unchanged, if_neg Bool.false_ne_true, held, ok_bind, if_pos rfl]
      exact rescan_visited previous.file file more front knows.reading

theorem Settled.call (settled : Settled filters disk) (path : JsString) (choice : Choice ι)
    (more : Bytes) (interrupted : Option Thrown)
    : (disk.snapshot filters path choice more interrupted).2
        = (match interrupted with
          | some error => .error error
          | none => fullScan filters choice (disk.bytesAt path))
      ∧ ∀ cache, (disk.snapshot filters path choice more interrupted).1 = some cache →
        ∃ file, disk.files path = some file ∧ cache.file = path
          ∧ (cache.stat.dev, cache.stat.ino) = (file.dev, file.ino)
          ∧ Reading filters cache.choice file.bytes cache.progress := by
  unfold Disk.snapshot Disk.bytesAt confirmedSessionReceiptSnapshot
  cases interrupted with
  | some error => exact ⟨rfl, fun _ kept => absurd kept (Option.some_ne_none _).symm⟩
  | none =>
    cases there : disk.files path with
    | none => exact ⟨rfl, fun _ kept => absurd kept (Option.some_ne_none _).symm⟩
    | some file =>
      have opened := settled.visited there choice more
      dsimp only [Option.map_some, Option.getD_some]
      cases visited : visit filters disk.cache path choice file.stat (file.bytes ++ more) with
      | error error =>
        rw [visited] at opened
        exact ⟨opened.symm, fun _ kept => absurd kept (Option.some_ne_none _).symm⟩
      | ok cache =>
        rw [visited] at opened
        obtain ⟨named, inode, reading, scanned⟩ := opened
        refine ⟨scanned.symm, fun other kept => ?_⟩
        obtain rfl := Option.some.inj kept
        exact ⟨file, rfl, named, inode, reading⟩

theorem DiskStep.settled {before after : Disk ι ν} (step : DiskStep filters before after)
    (settled : Settled filters before)
    : Settled filters after := by
  cases step with
  | grow path more mtimeMs ctimeMs => exact settled.grow path more mtimeMs ctimeMs
  | replace path file another => exact settled.replace path another
  | remove path => exact settled.remove path
  | call path choice more interrupted mtimeMs ctimeMs =>
    have grown := settled.grow path more mtimeMs ctimeMs
    refine ⟨grown.used, fun cache kept => ?_⟩
    obtain ⟨file, there, named, inode, reading⟩ :=
      (settled.call path choice more interrupted).2 cache kept
    obtain ⟨dev, ino⟩ := Prod.ext_iff.1 inode
    refine ⟨file.bytes, reading, ?_, fun later held _ _ => ?_⟩
    · rw [inode]
      exact settled.used path file there
    · obtain ⟨old, was, -, -, front⟩ := files_grow held
      rw [named, there] at was
      rwa [Option.some.inj was]

theorem OnDisk.settled (reached : OnDisk filters disk)
    : Settled filters disk := by
  induction reached with
  | start =>
    exact ⟨fun _ _ there => absurd there (Option.some_ne_none _).symm,
      fun _ kept => absurd kept (Option.some_ne_none _).symm⟩
  | next reached step ih => exact step.settled ih

end

def keepAll : Filters Unit Json where
  matchesLine := fun _ _ => .ok true
  matchesEntry := fun _ _ => .ok true
  project := fun _ entry => .ok entry

/-- A disk with a file whose last line is cut, read once, and then completed. -/
def completed : Disk Unit Json :=
  let disk : Disk Unit Json :=
    Disk.replace ⟨fun _ => none, [], none⟩ (lit "s") ⟨1, 1, Utf8.encode (lit "1\n\x7b\n2"), 0, 0⟩
  Disk.grow
    { disk.grow (lit "s") [] 0 0 with
      cache := (disk.snapshot keepAll (lit "s") ⟨(), none, ()⟩ [] none).1 }
    (lit "s") (Utf8.encode (lit "3\n")) 1 1

end PiFabric.Sessions
