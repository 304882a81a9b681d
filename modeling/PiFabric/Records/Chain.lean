import PiFabric.Foundation.NumberValue
import PiFabric.Foundation.JsMap
import PiFabric.Foundation.JsonObject
import PiFabric.Foundation.Paging
import PiFabric.Foundation.Sha256

/-! The hash chain of the records table: rows in their text form, the canonical hash of a row,
the anchor of a table, and the verifier with its report.
-/

namespace PiFabric.Records

open JsString
open Json (Members)

structure Row where
  id : JsString
  org : JsString
  origin : JsString
  seq : Nat
  ref : JsString
  kind : JsString
  author : JsString
  authorName : Option JsString
  createdAt : JsString
  text : Option JsString
  data : JsString
  supersedes : Option JsString
  key : JsString
  payloadHash : JsString
  prevHash : Option JsString
  deriving DecidableEq

def columns (row : Row) : List (JsString × Option JsString) :=
  [(lit "id", row.id), (lit "org", row.org), (lit "origin", row.origin),
    (lit "seq", Json.digits row.seq), (lit "ref", row.ref), (lit "kind", row.kind),
    (lit "author", row.author), (lit "author_name", row.authorName),
    (lit "created_at", row.createdAt), (lit "text", row.text), (lit "data", row.data),
    (lit "supersedes", row.supersedes), (lit "key", row.key),
    (lit "payload_hash", row.payloadHash), (lit "prev_hash", row.prevHash)]

def cell : Option JsString → Json
  | some text => .string text
  | none => .null

def canonicalJson (row : Row) : Json :=
  .object (((columns row).insertionSort fun a b => JsString.le a.1 b.1 = true).map fun column =>
    (column.1, cell column.2))

def canonicalBytes (row : Row) : List UInt8 :=
  Json.bytes (canonicalJson row)

def rowHash (row : Row) : JsString :=
  Sha256.hex (canonicalBytes row)

/-- The content of the table. Its constraints hold of whatever it contains, and a relation has
fewer pages than it would take for as many rows as there are exact integers.
-/
structure Table where
  rows : List Row
  ids : (rows.map Row.id).Nodup
  positive : ∀ row ∈ rows, 0 < row.seq
  few : rows.length < Double.exactLimit

def Row.place (row : Row) : ℕ ×ₗ List ℕ :=
  toLex (row.seq, row.id.map UInt16.toNat)

structure Link where
  seq : Nat
  hash : JsString
  deriving DecidableEq

def lastRow (org : JsString) (table : Table) : Option Row :=
  (table.rows.filter fun row => row.org = org).argmax Row.seq

/-- The org's last record's canonical hash: the next record's `prev_hash`. -/
def lastHash (org : JsString) (table : Table) : Option Link :=
  (lastRow org table).map fun row => { seq := Double.ofNat row.seq, hash := rowHash row }

structure Anchor where
  org : JsString
  seq : Nat
  hash : Option JsString
  «at» : JsString

def Anchor.json (anchor : Anchor) : Json :=
  .object [(lit "org", .string anchor.org), (lit "seq", .number (.int anchor.seq)),
    (lit "hash", cell anchor.hash), (lit "at", .string anchor.at)]

/-- `#member`: the table holds only this org's and origin's rows. -/
def member (org origin : JsString) (table : Table) : Bool :=
  table.rows.all fun row => row.org = org && row.origin = origin

/-- `anchor()` on a snapshot, unless the membership check refuses. -/
def anchorOf (org origin time : JsString) (table : Table) : Option Anchor :=
  if member org origin table then
    some {
      org
      seq := ((lastHash org table).map Link.seq).getD 0
      hash := (lastHash org table).map Link.hash
      «at» := time
    }
  else none

def maxAnchors : Nat := 10000

/-- `RecordsArgumentError`, as the verify call throws it. -/
inductive ArgumentError where
  | notObject
  | unknownFields (fields : List JsString)
  | notAnchors
  | notAnchor
  deriving DecidableEq

def ArgumentError.message (error : ArgumentError) : JsString :=
  lit "Invalid records call: " ++ match error with
    | notObject => lit "records.verify takes \x7banchors?\x7d"
    | unknownFields fields =>
        lit "records.verify: unknown field "
          ++ (lit ", ").intercalate (fields.map Json.quote) ++ lit "; allowed: anchors"
    | notAnchors =>
        lit "anchors must be an array of \x7bseq, hash\x7d (at most 10000)"
    | notAnchor =>
        lit "each anchor needs seq (a positive integer) and hash (64 lowercase hex), "
          ++ lit "or is the empty-chain anchor \x7bseq: 0, hash: null\x7d"

def isHash (text : JsString) : Bool :=
  text.length = 64 && text.all isHexUnit

/-- One entry of `parseAnchors`; the empty-chain anchor vouches for nothing. -/
def parseAnchor (entry : Json) : Except ArgumentError (List Link) :=
  let anchor : Members := match entry with
    | .object anchor => anchor
    | _ => []
  match anchor.get? "seq", anchor.get? "hash" with
  | some (.number (.int 0)), some .null => .ok []
  | some (.number (.int seq)), some (.string hash) =>
      if 1 ≤ seq && seq < Double.exactLimit && isHash hash then
        .ok [{ seq := seq.toNat, hash }]
      else .error .notAnchor
  | _, _ => .error .notAnchor

def parseAnchors : Option Json → Except ArgumentError (List Link)
  | none => .ok []
  | some (.array entries) =>
      if entries.length ≤ maxAnchors then (entries.mapM parseAnchor).map List.flatten
      else .error .notAnchors
  | some _ => .error .notAnchors

inductive BreakReason where
  | prevHash
  | gap
  | org
  | origin
  deriving DecidableEq

def BreakReason.name : BreakReason → JsString
  | prevHash => lit "prev_hash"
  | gap => lit "gap"
  | org => lit "org"
  | origin => lit "origin"

structure ChainBreak where
  org : JsString
  seq : Nat
  reason : BreakReason
  expected : Option JsString
  found : Option JsString
  deriving DecidableEq

structure AnchorFailure where
  seq : Nat
  hash : JsString
  found : Option JsString
  deriving DecidableEq

def maxReportedAnchorFailures : Nat := 20

def batch : Nat := 1000

structure Progress where
  first : Option ChainBreak
  prev : Option Link
  rows : Nat
  wanted : JsMap Nat (Option JsString)

/-- One row of the loop; a sequence is compared as the number it converts to. -/
def checkRow (org origin : JsString) (state : Progress) (row : Row) : Progress :=
  let seq := Double.ofNat row.seq
  let hash := rowHash row
  if row.org ≠ org ∨ row.origin ≠ origin then
    let foreign : ChainBreak :=
      if row.org ≠ org then
        { org, seq, reason := .org, expected := some org, found := some row.org }
      else { org, seq, reason := .origin, expected := some origin, found := some row.origin }
    {
      state with
      first := state.first.or (some foreign)
      rows := state.rows + 1
    }
  else
    let expectedSeq := Double.ofNat ((state.prev.map Link.seq).getD 0 + 1)
    let expectedHash := state.prev.map Link.hash
    let broken : Option ChainBreak :=
      if seq ≠ expectedSeq then
        some {
          org
          seq
          reason := .gap
          expected := some (Json.digits expectedSeq)
          found := some (Json.digits seq)
        }
      else if row.prevHash ≠ expectedHash then
        some { org, seq, reason := .prevHash, expected := expectedHash, found := row.prevHash }
      else none
    {
      first := state.first.or broken
      prev := some { seq, hash }
      rows := state.rows + 1
      wanted := if state.wanted.has seq then state.wanted.set seq (some hash) else state.wanted
    }

def nilUuid : JsString :=
  lit "00000000-0000-0000-0000-000000000000"

def wantedOf (anchors : List Link) : JsMap Nat (Option JsString) :=
  JsMap.bindAll Link.seq (fun _ => none) JsMap.empty anchors

def readRows (org origin : JsString) (anchors : List Link) (table : Table) : Progress :=
  Paging.readPages table.rows Row.place batch (checkRow org origin)
    (toLex (0, nilUuid.map UInt16.toNat))
    { first := none, prev := none, rows := 0, wanted := wantedOf anchors }

/-- The anchors that the table does not bear out, in sequence order. -/
def failures (wanted : JsMap Nat (Option JsString)) (anchors : List Link)
    : List AnchorFailure :=
  ((anchors.mergeSort fun a b => a.seq ≤ b.seq).filter fun anchor =>
    (wanted.get? anchor.seq).join ≠ some anchor.hash).map fun anchor =>
      { seq := anchor.seq, hash := anchor.hash, found := (wanted.get? anchor.seq).join }

structure VerifyResult where
  org : JsString
  rows : Nat
  last : Option Link
  ok : Bool
  clean : Bool
  «break» : Option ChainBreak
  checked : Nat
  passed : Nat
  failed : Nat
  failedAnchors : List AnchorFailure
  unanchored : Option (Nat × Nat)
  summary : JsString

def breakLine (broken : ChainBreak) : JsString :=
  if broken.reason = .org ∨ broken.reason = .origin then
    lit "unexpected " ++ broken.reason.name ++ lit " at seq " ++ Json.digits broken.seq
      ++ lit ": expected " ++ broken.expected.getD (lit "null") ++ lit ", found "
      ++ broken.found.getD (lit "none")
  else
    lit "chain broken at " ++ broken.org ++ lit " seq " ++ Json.digits broken.seq ++ lit " ("
      ++ broken.reason.name ++ lit "): expected " ++ broken.expected.getD (lit "none")
      ++ lit ", found " ++ broken.found.getD (lit "none")

def failureLine (org : JsString) (failed checked : Nat) (failure : AnchorFailure) : JsString :=
  lit "anchor " ++ org ++ lit " seq " ++ Json.digits failure.seq ++ lit " fails: expected "
    ++ failure.hash ++ lit ", found " ++ failure.found.getD (lit "no row")
    ++ if 1 < failed then
        lit " (" ++ Json.digits failed ++ lit " of " ++ Json.digits checked ++ lit " anchors fail)"
      else []

def unanchoredLine (range : Nat × Nat) : JsString :=
  lit "unanchored: seq " ++ Json.digits range.1 ++ lit ".." ++ Json.digits range.2

def verifyChain (org origin : JsString) (anchors : List Link) (table : Table) : VerifyResult :=
  let read := readRows org origin anchors table
  let failed := failures read.wanted anchors
  let latest := (anchors.map Link.seq).foldl max 0
  let unanchored := (read.prev.filter fun prev => latest < prev.seq).map fun prev =>
    (latest + 1, prev.seq)
  let ok := read.first.isNone && failed.isEmpty
  let lines := (read.first.map breakLine).toList
    ++ (failed.head?.map (failureLine org failed.length anchors.length)).toList
    ++ (unanchored.map unanchoredLine).toList
  {
    org
    rows := read.rows
    last := read.prev
    ok
    clean := ok && unanchored.isNone
    «break» := read.first
    checked := anchors.length
    passed := anchors.length - failed.length
    failed := failed.length
    failedAnchors := failed.take maxReportedAnchorFailures
    unanchored
    summary :=
      if lines.isEmpty then
        lit "clean: " ++ Json.digits read.rows ++ lit " records, anchored through seq "
          ++ Json.digits latest
      else (lit "\n").intercalate lines
  }

def verify (org origin : JsString) (input : Option Json) (table : Table)
    : Except ArgumentError VerifyResult := do
  let args : Members ← match input with
    | none => .ok []
    | some .null => .ok []
    | some (.object args) => .ok args
    | some _ => .error .notObject
  let extra := (args.map Prod.fst).filter (· ≠ lit "anchors")
  if extra.isEmpty then .ok () else .error (.unknownFields extra)
  let anchors ← parseAnchors (args.get? "anchors")
  .ok (verifyChain org origin anchors table)

end PiFabric.Records
