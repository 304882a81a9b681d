import PiFabric.Foundation.JsString
import PiFabric.Foundation.JsValue
import PiFabric.Foundation.JsonObject
import PiFabric.Foundation.LinkedTree

/-! Paths as Node's `path` module for POSIX reads and relates their texts.
-/

namespace PiFabric.Guard

open JsString
open LinkedTree (Segment Target collapse)

def sep : UInt16 := 0x2F

structure Name where
  text : JsString
  nonempty : text ≠ []
  no_here : text ≠ lit "."
  no_up : text ≠ lit ".."
  no_sep : sep ∉ text
deriving DecidableEq

/-- A location of the file system: the names from the root, with no dots. -/
abbrev Path := List Name

abbrev Part := { text : JsString // sep ∉ text }

def parts (begun : Part) : JsString → List Part
  | [] => [begun]
  | unit :: rest =>
      if h : unit = sep then begun :: parts ⟨[], List.not_mem_nil⟩ rest
      else parts ⟨begun.1 ++ [unit], by simpa [begun.2] using fun same => h same.symm⟩ rest

def segmentOf (part : Part) : Segment Name :=
  if h : part.1 = [] ∨ part.1 = lit "." then .here
  else if up : part.1 = lit ".." then .up
  else .name ⟨part.1, fun same => h (.inl same), fun same => h (.inr same), up, part.2⟩

def segmentsOf (text : JsString) : List (Segment Name) :=
  (parts ⟨[], List.not_mem_nil⟩ text).map segmentOf

def isAbsolute (text : JsString) : Bool :=
  text.head? == some sep

def targetOf (text : JsString) : Target Name where
  absolute := isAbsolute text
  segments := segmentsOf text

def resolve (cwd : Path) (text : JsString) : Path :=
  collapse (if isAbsolute text then [] else cwd) (segmentsOf text)

/-- The texts that lead from one path to another, with their common names left out. -/
def relativeParts : Path → Path → List JsString
  | [], target => target.map Name.text
  | source, [] => List.replicate source.length (lit "..")
  | first :: source, second :: target =>
      if first = second then relativeParts source target
      else List.replicate (source.length + 1) (lit "..") ++ (second :: target).map Name.text

def relative (source target : Path) : JsString :=
  [sep].intercalate (relativeParts source target)

def pathText (path : Path) : JsString :=
  sep :: [sep].intercalate (path.map Name.text)

/-- `path.dirname`: the text before the last name and the separators around it. -/
def dirname (text : JsString) : JsString :=
  if text = [] then lit "."
  else
    let rooted := isAbsolute text
    let before := (text.tail.reverse.dropWhile (· == sep)).dropWhile (· != sep)
    match before with
    | [] => if rooted then [sep] else lit "."
    | _ => if rooted && before.length == 1 then [sep, sep] else text.take before.length

/-- `path.basename`: the last name of a text. -/
def basename (text : JsString) : JsString :=
  ((text.reverse.dropWhile (· == sep)).takeWhile (· != sep)).reverse

/-- Whether a path lies in a root, told from the text that leads there. -/
def isInside (cwd : Path) (root : JsString) (target : Path) : Bool :=
  let relative := relative (resolve cwd root) target
  relative == []
    || (relative != lit ".." && !(lit "../").isPrefixOf relative && !isAbsolute relative)

example : isInside [] (lit "/w") (resolve [] (lit "/w/../w/..x")) = true := by decide

end PiFabric.Guard

/-! The write guard of a child agent. A policy text arrives in the environment. Each write or edit
names a path, which the guard resolves as the tool does, and refuses unless the path and its real
location lie in a writable root.
-/

namespace PiFabric.Guard

open JsString
open LinkedTree (Segment Node Tree Lookup collapse namesOf)

structure Status where
  uid : Nat
  mode : Nat
  dev : Nat
  ino : Nat

/-- A file system, and how many links one lookup may follow. -/
structure FileSystem where
  tree : Tree Name Status
  links : Nat

/-- A path to a file in normal form, which may end in a separator. -/
structure FilePath where
  names : Path
  slash : Bool
deriving DecidableEq

def FilePath.segments (path : FilePath) : List (Segment Name) :=
  path.names.map .name ++ if path.slash then [.here] else []

namespace FileSystem

/-- `fs.lstatSync`: what is at a path, with a last link not followed; none where it throws. -/
def lstat (files : FileSystem) (segments : List (Segment Name)) : Option (Node Name Status) :=
  match files.tree.walk false files.links [] segments with
  | .arrived location => files.tree.find location
  | _ => none

/-- `fs.realpathSync` in its JavaScript form: each link on the way is replaced by what its target
spells, with the dots of the target resolved in its text, and the search starts over. `none` while
it still runs, `some none` where it throws.
-/
def realpathSync (files : FileSystem) : Nat → Path → Option (Option Path)
  | 0, _ => none
  | rounds + 1, path =>
      match files.tree.advance true [] (path.map .name) with
      | .arrived real => some (some real)
      | .missing _ _ _ => some none
      | .failed => some none
      | .link parent name target rest =>
          match files.tree.walk true files.links [] ((parent ++ [name]).map .name) with
          | .arrived _ =>
              files.realpathSync rounds
                (collapse (target.start parent) target.segments ++ namesOf rest)
          | _ => some none

def nearestExisting (files : FileSystem) : List Name → Option Path
  | [] => if (files.lstat []).isSome then some [] else none
  | name :: before =>
      if (files.lstat ((name :: before).reverse.map .name)).isSome then
        some (name :: before).reverse
      else files.nearestExisting before

/-- Where the search for an existing ancestor of a path ends. -/
def nearest (files : FileSystem) (target : FilePath) : Option Path :=
  if target.slash then
    if (files.lstat target.segments).isSome then some target.names
    else files.nearestExisting target.names.dropLast.reverse
  else files.nearestExisting target.names.reverse

/-- Real path of the target or its nearest existing ancestor; throws on dangling links. -/
def nearestRealPath (files : FileSystem) (rounds : Nat) (target : FilePath)
    : Option (Option Path) :=
  match files.nearest target with
  | none => some none
  | some current =>
      (files.realpathSync rounds current).map fun real? =>
        real?.map fun real => real ++ target.names.drop current.length

end FileSystem

structure Process where
  /-- `process.cwd()`. -/
  cwd : Path
  /-- `os.homedir()`. -/
  home : Path
  /-- `process.getuid?.()`. -/
  uid : Option Nat
  tmpdir : Option JsString
  sessionStore : Option JsString
  sessionStoreId : Option JsString
  actorId : Option JsString
  actorName : Option JsString
  /-- `fileURLToPath`, none where it throws. -/
  fileURLToPath : JsString → Option FilePath

def isToolSpace (unit : UInt16) : Bool :=
  unit == 0xA0 || 0x2000 ≤ unit && unit ≤ 0x200A || unit == 0x202F || unit == 0x205F
    || unit == 0x3000

/-- Mirrors the write and edit tools' resolution; none where it throws. -/
def resolveToolPath (process : Process) (input cwd : JsString) : Option FilePath :=
  let spaced := input.map fun unit => if isToolSpace unit then 0x20 else unit
  let value := if spaced.head? == some 0x40 then spaced.tail else spaced
  if value = lit "~" then some { names := process.home, slash := false }
  else if (lit "~/").isPrefixOf value then
    let names := collapse process.home (segmentsOf (value.drop 2))
    some { names, slash := value.getLast? == some sep && !names.isEmpty }
  else if (lit "file://").isPrefixOf value then process.fileURLToPath value
  else some { names := resolve (resolve process.cwd cwd) value, slash := false }

/-- A physical directory of the process's own, mode 0700, under the text that names it. -/
def owned (files : FileSystem) (rounds uid : Nat) (cwd : Path) (directory : JsString)
    : Option (Option Status) :=
  let path := resolve cwd directory
  match files.lstat (segmentsOf directory) with
  | none => some none
  | some node =>
      (files.realpathSync rounds path).map fun real? =>
        match real?, node with
        | some real, .directory status _ =>
            if pathText real = directory ∧ status.uid = uid ∧ status.mode % 0o10000 = 0o700
              then some status
            else none
        | _, _ => none

/-- Whether the resolved path and its real location both lie in a root. -/
def allowed (files : FileSystem) (rounds : Nat) (process : Process) (roots : List JsString)
    (raw cwd : JsString)
    : Option Bool :=
  match resolveToolPath process raw cwd with
  | none => some false
  | some lexical =>
      (files.nearestRealPath rounds lexical).map fun real? =>
        match real? with
        | none => false
        | some real =>
            roots.any (fun root => isInside process.cwd root lexical.names)
              && roots.any (fun root => isInside process.cwd root real)

end PiFabric.Guard
