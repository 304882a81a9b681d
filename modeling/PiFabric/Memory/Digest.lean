import PiFabric.Foundation.NumberValue
import PiFabric.Foundation.TextBytes
import PiFabric.Memory.Entries

/-! The digest that stands for a session whose entries are not indexed: its lexical vocabulary, the
structural address of each entry, and counts. Its vocabulary is a set of terms in strictly ascending
order.
-/

namespace PiFabric.Memory

open JsString Json

/-- The source identity and the typed fields of one entry. -/
structure DigestEntryAddress where
  index : Nat
  entryId : Option JsString
  operationAddress : Option JsString
  role : Option JsString
  toolName : Option JsString
  timestamp : Option JsNumber
  ref : Option JsString
  provider : Option JsString
  action : Option JsString
  outcome : Option FabricExecutionOutcome

structure DigestIndexCoverage where
  complete : Bool
  vocabularyBytes : Nat
  reasons : List JsString

structure SessionDigest where
  sessionId : JsString
  file : JsString
  cwd : JsString
  firstTs : Option JsNumber
  lastTs : Option JsNumber
  entryCount : Nat
  filesTouched : List JsString
  toolHistogram : List (JsString × Nat)
  errorCount : Nat
  vocabulary : List JsString
  addresses : List DigestEntryAddress
  indexCoverage : DigestIndexCoverage

structure NormalizationCoverage where
  complete : Bool
  reasons : List JsString

structure DigestInput where
  sessionId : JsString
  file : JsString
  cwd : JsString
  entries : List NormalizedEntry
  maxVocabularyBytes : Option Nat := none
  filesTouchedLimit : Option Nat := none
  normalizationCoverage : Option NormalizationCoverage := none

def defaultFilesTouchedLimit : Nat := 50

def maxSafeInteger : Nat := 2 ^ 53 - 1

def coverageComplete (complete exceeded : Bool) : Bool :=
  complete && !exceeded

def vocabularyJsonBytes (terms : List JsString) : Nat :=
  serializedBytes (.array (terms.map .string))

def minNumber (left right : JsNumber) : JsNumber :=
  if left.value ≤ right.value then left else right

def maxNumber (left right : JsNumber) : JsNumber :=
  if left.value ≤ right.value then right else left

structure DigestFold where
  firstTs : Option JsNumber := none
  lastTs : Option JsNumber := none
  errorCount : Nat := 0
  filesTouched : List JsString := []
  tools : JsMap JsString Nat := .empty
  vocabulary : List JsString := []
  filesLimitReached : Bool := false
  vocabularyLimitReached : Bool := false
  estimatedVocabularyBytes : Nat := 2

/-- One touched file: a new path is kept while there is room. -/
def foldFile (limit : Nat) (fold : DigestFold) (file : JsString) : DigestFold :=
  let normalized := trim file
  if normalized = [] ∨ normalized ∈ fold.filesTouched then fold
  else if limit ≤ fold.filesTouched.length then { fold with filesLimitReached := true }
  else { fold with filesTouched := fold.filesTouched ++ [normalized] }

def termBytes (vocabulary : List JsString) (term : JsString) : Nat :=
  serializedBytes (.string term) + if vocabulary = [] then 0 else 1

/-- The terms of one entry, up to the first new one that the vocabulary has no room for. -/
def foldTerms (maxBytes : Nat) (fold : DigestFold) : List JsString → DigestFold
  | [] => fold
  | term :: rest =>
      if term ∈ fold.vocabulary then foldTerms maxBytes fold rest
      else
        let bytes := fold.estimatedVocabularyBytes + termBytes fold.vocabulary term
        if maxBytes < bytes then { fold with vocabularyLimitReached := true }
        else
          foldTerms maxBytes {
            fold with
            vocabulary := fold.vocabulary ++ [term]
            estimatedVocabularyBytes := bytes
          } rest

def foldFields (filesLimit : Nat) (fold : DigestFold) (entry : NormalizedEntry) : DigestFold :=
  let timed :=
    match entry.timestamp with
    | none => fold
    | some time =>
        { fold with
          firstTs := some ((fold.firstTs.map (minNumber · time)).getD time)
          lastTs := some ((fold.lastTs.map (maxNumber · time)).getD time) }
  let counted := { timed with errorCount := timed.errorCount + if entry.isError then 1 else 0 }
  let used :=
    match entry.toolName with
    | none => counted
    | some name =>
        if name = [] then counted
        else
          { counted with
            tools := counted.tools.set name ((counted.tools.get? name).getD 0 + 1) }
  (entry.filesTouched.getD []).foldl (foldFile filesLimit) used

variable (unicode : Unicode)

def foldEntry (filesLimit maxBytes : Nat) (fold : DigestFold) (entry : NormalizedEntry)
    : DigestFold :=
  let fielded := foldFields filesLimit fold entry
  if fielded.vocabularyLimitReached then fielded
  else foldTerms maxBytes fielded (tokenizeLexical unicode entry.text)

def addressOf (entry : NormalizedEntry) : DigestEntryAddress where
  index := entry.index
  entryId := entry.entryId
  operationAddress := entry.operationAddress
  role := entry.role
  toolName := entry.toolName
  timestamp := entry.timestamp
  ref := entry.ref
  provider := entry.provider
  action := entry.action
  outcome := entry.outcome

/-- Tools and their counts as the object built from them in sorted order lists them. -/
def toolHistogram (tools : JsMap JsString Nat) : List (JsString × Nat) :=
  enumerated Prod.fst (tools.entries.insertionSort fun a b => JsString.le a.1 b.1 = true)

def DigestInput.fold (input : DigestInput) : DigestFold :=
  input.entries.foldl
    (foldEntry unicode (input.filesTouchedLimit.getD defaultFilesTouchedLimit)
      (max 2 (input.maxVocabularyBytes.getD maxSafeInteger))) {}

/-- The reasons for which the index is not complete, in order and without repetition. -/
def DigestInput.reasons (input : DigestInput) : List JsString :=
  let fold := input.fold unicode
  JsString.sorted (((input.normalizationCoverage.map (·.reasons)).getD []
    ++ (if fold.filesLimitReached then [lit "max_files_touched"] else [])
    ++ (if fold.vocabularyLimitReached then [lit "max_cold_vocabulary_bytes"] else [])).eraseDups)

def foldSessionDigest (input : DigestInput) : SessionDigest :=
  let fold := input.fold unicode
  let reasons := input.reasons unicode
  let vocabulary := sortedTerms fold.vocabulary
  { sessionId := input.sessionId
    file := input.file
    cwd := input.cwd
    firstTs := fold.firstTs
    lastTs := fold.lastTs
    entryCount := input.entries.length
    filesTouched := fold.filesTouched
    toolHistogram := toolHistogram fold.tools
    errorCount := fold.errorCount
    vocabulary
    addresses := input.entries.map addressOf
    indexCoverage := {
      complete := coverageComplete ((input.normalizationCoverage.map (·.complete)).getD true)
        (!reasons.isEmpty)
      vocabularyBytes := vocabularyJsonBytes vocabulary
      reasons
    } }

@[simp] theorem vocabulary_foldFile (limit : Nat) (fold : DigestFold) (file : JsString)
    : (foldFile limit fold file).vocabulary = fold.vocabulary := by
  unfold foldFile
  dsimp only
  split
  · rfl
  · split <;> rfl

@[simp] theorem vocabularyLimitReached_foldFile (limit : Nat) (fold : DigestFold) (file : JsString)
    : (foldFile limit fold file).vocabularyLimitReached = fold.vocabularyLimitReached := by
  unfold foldFile
  dsimp only
  split
  · rfl
  · split <;> rfl

theorem vocabulary_foldFiles (limit : Nat) (files : List JsString) (fold : DigestFold)
    : (files.foldl (foldFile limit) fold).vocabulary = fold.vocabulary
      ∧ (files.foldl (foldFile limit) fold).vocabularyLimitReached
        = fold.vocabularyLimitReached := by
  induction files generalizing fold with
  | nil => exact ⟨rfl, rfl⟩
  | cons file rest ih =>
    obtain ⟨vocabulary, reached⟩ := ih (foldFile limit fold file)
    rw [List.foldl_cons, vocabulary, reached, vocabulary_foldFile, vocabularyLimitReached_foldFile]
    exact ⟨rfl, rfl⟩

theorem vocabulary_foldFields (filesLimit : Nat) (fold : DigestFold) (entry : NormalizedEntry)
    : (foldFields filesLimit fold entry).vocabulary = fold.vocabulary
      ∧ (foldFields filesLimit fold entry).vocabularyLimitReached
        = fold.vocabularyLimitReached := by
  unfold foldFields
  dsimp only
  rw [(vocabulary_foldFiles filesLimit _ _).1, (vocabulary_foldFiles filesLimit _ _).2]
  cases entry.timestamp <;> cases entry.toolName with
  | none => exact ⟨rfl, rfl⟩
  | some name =>
    dsimp only
    split <;> exact ⟨rfl, rfl⟩

/-- No term is added twice, by induction over the terms. -/
theorem nodup_foldTerms {maxBytes : Nat} (terms : List JsString) {fold : DigestFold}
    (distinct : fold.vocabulary.Nodup)
    : (foldTerms maxBytes fold terms).vocabulary.Nodup := by
  induction terms generalizing fold with
  | nil => exact distinct
  | cons term rest ih =>
    rw [foldTerms]
    split
    · exact ih distinct
    · rename_i fresh
      dsimp only
      split
      · exact distinct
      · refine ih ?_
        refine List.nodup_append.mpr ⟨distinct, List.nodup_singleton _, ?_⟩
        intro old member other same equal
        rw [List.mem_singleton.mp same] at equal
        exact fresh (equal ▸ member)

/-- The vocabulary of the whole fold is a set, by induction over the entries. -/
theorem nodup_fold (input : DigestInput) : (input.fold unicode).vocabulary.Nodup := by
  unfold DigestInput.fold
  generalize input.entries = entries
  have start : (DigestFold.vocabulary {}).Nodup := List.nodup_nil
  revert start
  generalize ({} : DigestFold) = fold
  intro start
  induction entries generalizing fold with
  | nil => exact start
  | cons entry rest ih =>
    refine ih _ ?_
    rw [foldEntry]
    have kept := vocabulary_foldFields (input.filesTouchedLimit.getD defaultFilesTouchedLimit) fold
      entry
    split
    · rw [kept.1]
      exact start
    · refine nodup_foldTerms _ ?_
      rw [kept.1]
      exact start

theorem vocabulary_ascending (input : DigestInput)
    : (foldSessionDigest unicode input).vocabulary.Pairwise (· < ·) :=
  sortedTerms_ascending (nodup_fold unicode input)

theorem foldTerms_keeps {maxBytes : Nat} (terms : List JsString) (fold : DigestFold)
    : (∀ term ∈ fold.vocabulary, term ∈ (foldTerms maxBytes fold terms).vocabulary)
      ∧ (fold.vocabularyLimitReached = true
        → (foldTerms maxBytes fold terms).vocabularyLimitReached = true) := by
  induction terms generalizing fold with
  | nil => exact ⟨fun _ held => held, fun reached => reached⟩
  | cons term rest ih =>
    rw [foldTerms]
    split
    · exact ih fold
    · dsimp only
      split
      · exact ⟨fun _ held => held, fun _ => rfl⟩
      · refine ⟨fun old held => (ih _).1 old ?_, fun reached => (ih _).2 reached⟩
        exact List.mem_append_left _ held

theorem mem_foldTerms {maxBytes : Nat} {terms : List JsString} {fold : DigestFold}
    (room : (foldTerms maxBytes fold terms).vocabularyLimitReached = false) {term : JsString}
    (member : term ∈ terms)
    : term ∈ (foldTerms maxBytes fold terms).vocabulary := by
  induction terms generalizing fold with
  | nil => cases member
  | cons first rest ih =>
    rw [foldTerms] at room ⊢
    split at room
    · rename_i old
      rw [if_pos old]
      rcases List.mem_cons.mp member with rfl | later
      · exact (foldTerms_keeps rest fold).1 _ old
      · exact ih room later
    · rename_i fresh
      rw [if_neg fresh]
      dsimp only at room ⊢
      split at room
      · cases room
      · rename_i short
        rw [if_neg short]
        rcases List.mem_cons.mp member with rfl | later
        · exact (foldTerms_keeps rest _).1 _
            (List.mem_append_right _ (List.mem_singleton_self _))
        · exact ih room later

theorem foldEntry_keeps {filesLimit maxBytes : Nat} (fold : DigestFold) (entry : NormalizedEntry)
    : (∀ term ∈ fold.vocabulary,
        term ∈ (foldEntry unicode filesLimit maxBytes fold entry).vocabulary)
      ∧ (fold.vocabularyLimitReached = true
        → (foldEntry unicode filesLimit maxBytes fold entry).vocabularyLimitReached = true) := by
  obtain ⟨vocabulary, reached⟩ := vocabulary_foldFields filesLimit fold entry
  rw [foldEntry]
  split
  · rw [vocabulary, reached]
    exact ⟨fun _ held => held, fun full => full⟩
  · have kept := @foldTerms_keeps maxBytes (tokenizeLexical unicode entry.text)
      (foldFields filesLimit fold entry)
    rw [vocabulary, reached] at kept
    exact kept

theorem mem_fold {input : DigestInput}
    (room : (input.fold unicode).vocabularyLimitReached = false) {entry : NormalizedEntry}
    (member : entry ∈ input.entries) {token : JsString}
    (inside : token ∈ tokenizeLexical unicode entry.text)
    : token ∈ (input.fold unicode).vocabulary := by
  unfold DigestInput.fold at room ⊢
  revert room
  generalize input.filesTouchedLimit.getD defaultFilesTouchedLimit = filesLimit
  generalize max 2 (input.maxVocabularyBytes.getD maxSafeInteger) = maxBytes
  intro room
  have later (more : List NormalizedEntry) (fold : DigestFold)
      : (∀ term ∈ fold.vocabulary,
          term ∈ (more.foldl (foldEntry unicode filesLimit maxBytes) fold).vocabulary)
        ∧ (fold.vocabularyLimitReached = true
          → (more.foldl (foldEntry unicode filesLimit maxBytes) fold).vocabularyLimitReached
            = true) := by
    induction more generalizing fold with
    | nil => exact ⟨fun _ held => held, fun full => full⟩
    | cons next rest ih =>
      have step := @foldEntry_keeps unicode filesLimit maxBytes fold next
      exact ⟨fun term held => (ih _).1 term (step.1 term held),
        fun full => (ih _).2 (step.2 full)⟩
  obtain ⟨before, after, split_⟩ := List.append_of_mem member
  rw [split_, List.foldl_append, List.foldl_cons] at room ⊢
  generalize before.foldl (foldEntry unicode filesLimit maxBytes) {} = fold at room ⊢
  have open_
      : (foldEntry unicode filesLimit maxBytes fold entry).vocabularyLimitReached = false := by
    by_contra full
    rw [(later after _).2 (Bool.eq_true_of_not_eq_false full)] at room
    cases room
  refine (later after _).1 token ?_
  rw [foldEntry] at open_ ⊢
  split at open_
  · rename_i reached
    rw [reached] at open_
    cases open_
  · rename_i reached
    rw [if_neg reached]
    exact mem_foldTerms open_ inside

theorem mem_vocabulary {input : DigestInput}
    (complete : (foldSessionDigest unicode input).indexCoverage.complete = true)
    {entry : NormalizedEntry} (member : entry ∈ input.entries) {token : JsString}
    (inside : token ∈ tokenizeLexical unicode entry.text)
    : token ∈ (foldSessionDigest unicode input).vocabulary := by
  have whole : coverageComplete ((input.normalizationCoverage.map (·.complete)).getD true)
      (!(input.reasons unicode).isEmpty) = true :=
    complete
  rw [coverageComplete, Bool.not_not, Bool.and_eq_true, List.isEmpty_iff] at whole
  have room : (input.fold unicode).vocabularyLimitReached = false := by
    by_contra full
    have reached := Bool.eq_true_of_not_eq_false full
    have reason : lit "max_cold_vocabulary_bytes" ∈ input.reasons unicode := by
      refine (JsString.perm_sorted _).mem_iff.mpr (List.mem_eraseDups.mpr ?_)
      rw [reached]
      exact List.mem_append_right _ (List.mem_singleton_self _)
    rw [whole.2] at reason
    cases reason
  exact (JsString.perm_sorted _).mem_iff.mpr (mem_fold unicode room member inside)

end PiFabric.Memory
