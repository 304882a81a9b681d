import PiFabric.Actors.LogStore

/-! What is recorded of a message fits, and its text is cut from the text it had. -/

namespace PiFabric.Actors

open JsString Json Utf8

def sample (source text : JsString) (data : Option (Option Cloned))
    : FabricActorMessage (Option Cloned) where
  principal := none
  id := lit "m"
  actorId := lit "a"
  actorName := lit "a"
  direction := .out
  source := source
  createdAt := ⟨.number (.int 1), by decide⟩
  text := some text
  data := data
  action := none
  runId := none
  usage := none
  error := none
  stale := none
  reason := none

end PiFabric.Actors
