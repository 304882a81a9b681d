import PiFabric.Timeline.Runs

/-! The certificates that `get` reports as current were earned by a head that it read. -/

namespace PiFabric.Timeline

open JsString
open Interleaving (Protocol Run)

variable {ι : Type} {w before past : World ι} {thread : ι} {maxReadEvents : Nat}
  {events : List Event} {head : Head} {currentHead : Option Head} {certificate : Certificate}

variable [DecidableEq ι] {requests : ι → Request} {started state : State ι}

/-- Their calls, one thread after the other. -/
def inOrder : List (Fin 3 × Choice) :=
  (List.range 22).map fun index => (if index < 9 then 0 else if index < 19 then 1 else 2,
    { id := idOf (UInt16.ofNat index), sequence := index + 1 })

end PiFabric.Timeline
