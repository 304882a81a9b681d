import Mathlib

/-! Changes of a store of named resources, and components that take their own changes back while
others change it too.
-/

namespace PiFabric.Footprints

variable {ρ ν σ : Type*}

/-- A change writes only the resources of a footprint, and what it writes depends on these only. -/
structure Within (footprint : Set ρ) (change : (ρ → ν) → ρ → ν) : Prop where
  keeps : ∀ store, ∀ name ∉ footprint, change store name = store name
  reads : ∀ one other : ρ → ν, (∀ name ∈ footprint, one name = other name) →
    ∀ name ∈ footprint, change one name = change other name

theorem Within.id (footprint : Set ρ) : Within footprint (fun store : ρ → ν => store) :=
  ⟨fun _ _ _ => rfl, fun _ _ same => same⟩

/-- A change together with the inverse that it registers where it ran. -/
structure Action (σ : Type*) where
  run : σ → σ
  undo : σ → σ → σ

/-- Whatever inverse the action registered, it may be moved past the other's change. -/
def Action.Passes (own other : Action σ) : Prop :=
  ∀ start state, own.undo start (other.run state) = other.run (own.undo start state)

/-- A state, and the inverses that one component holds, the last one first. -/
structure Holding (σ : Type*) where
  state : σ
  inverses : List (σ → σ)

/-- One step of a component or of its peers. -/
inductive Event (σ : Type*)
  | own (action : Action σ)
  | peer (action : Action σ)
  | revert

def Holding.step (holding : Holding σ) : Event σ → Holding σ
  | .own action =>
      ⟨action.run holding.state, action.undo holding.state :: holding.inverses⟩
  | .peer action => { holding with state := action.run holding.state }
  | .revert =>
      match holding.inverses with
      | [] => holding
      | inverse :: rest => ⟨inverse holding.state, rest⟩

/-- Every inverse that is held may be moved past a change. -/
def Holding.Passes (holding : Holding σ) (change : σ → σ) : Prop :=
  ∀ inverse ∈ holding.inverses, ∀ state, inverse (change state) = change (inverse state)

end PiFabric.Footprints
