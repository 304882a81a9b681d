import PiFabric.Guard.WriteGuard

/-! An allowed write lands in a writable root. -/

namespace PiFabric.Guard

open JsString
open LinkedTree (Segment Node Tree Lookup collapse namesOf)
open Relation (ReflTransGen)

namespace FileSystem

variable {files : FileSystem}

/-- The path with its first link replaced by what the target spells. -/
def nextPath (files : FileSystem) (path : Path) : Option Path :=
  match files.tree.advance true [] (path.map .name) with
  | .link parent _ target rest =>
      some (collapse (target.start parent) target.segments ++ namesOf rest)
  | _ => none

/-- The first link of a path, if it leads somewhere, has a target with no parent step after a link.
-/
def MeetsStraight (files : FileSystem) (path : Path) : Prop :=
  match files.tree.advance true [] (path.map .name) with
  | .link parent name target _ =>
      ∀ location,
        files.tree.walk true files.links [] ((parent ++ [name]).map .name) = .arrived location →
          files.tree.Straight (target.start parent) target.segments
  | _ => True

/-- Every link that resolving the path comes to and that leads somewhere has a target with no parent
step after a link.
-/
def PlainLinks (files : FileSystem) (path : Path) : Prop :=
  ∀ other, ReflTransGen (fun path next => files.nextPath path = some next) path other →
    files.MeetsStraight other

variable {path : Path}

theorem PlainLinks.next {next : Path} (plain : files.PlainLinks path)
    (step : files.nextPath path = some next)
    : files.PlainLinks next :=
  fun other reached => plain other (.head step reached)

variable {current : Path}

variable {target : FilePath}

variable {location : Path}

end FileSystem

variable {files : FileSystem} {rounds : Nat} {process : Process} {policy : FabricWritePolicy}
variable {toolName : JsString} {input : JsValue} {cwd : JsString}

def named (text : JsString) (h : text ≠ [] ∧ text ≠ lit "." ∧ text ≠ lit ".." ∧ sep ∉ text)
    : Name :=
  ⟨text, h.1, h.2.1, h.2.2.1, h.2.2.2⟩

def plainStatus : Status where
  uid := 1000
  mode := 0o755
  dev := 1
  ino := 1

def directory (entries : List (Name × Node Name Status)) : Node Name Status :=
  .directory plainStatus entries

def filesOf (entries : List (Name × Node Name Status)) : FileSystem where
  tree := ⟨plainStatus, entries⟩
  links := 40

def w : Name := named (lit "w") (by decide)
def l : Name := named (lit "l") (by decide)
def x : Name := named (lit "x") (by decide)
def linked : FileSystem :=
  filesOf [(w, directory [(l, .link (targetOf (lit "x"))), (x, .file)])]

end PiFabric.Guard
