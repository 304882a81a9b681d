import PiFabric.Effects.Independence
import PiFabric.Foundation.Footprints

/-! What the check of independence is for: a component whose effects passed it can be unloaded
without disturbing what its peers did in the meantime.
-/

namespace PiFabric.Effects

open JsString Footprints

/-- What an author declares is so: the effect does nothing where its kind is `none`, and where it
names all its resources, it and its inverses stay within them.
-/
structure Declares {ν : Type} (registration : EffectOptions)
    (action : Action (JsString → ν)) : Prop where
  quiet : registration.kind = some .none →
    (∀ store, action.run store = store) ∧ ∀ start store, action.undo start store = store
  footprint : WellNamed (registration.resources.getD []) →
    Within {name | some name ∈ registration.resources.getD []} action.run
      ∧ ∀ start, Within {name | some name ∈ registration.resources.getD []} (action.undo start)

section
variable {ν : Type} {registration peer : EffectOptions} {action other : Action (JsString → ν)}

/-- A footprint that the check knows is that of the declaration. -/
theorem Declares.within (declared : Declares registration action)
    (known : anyResource ∉ (registrationEffect registration).resources)
    : Within {name | name ∈ (registrationEffect registration).resources} action.run
      ∧ ∀ start, Within {name | name ∈ (registrationEffect registration).resources}
        (action.undo start) := by
  obtain unknown | ⟨-, named, members⟩ := boundedEffectResources_cases registration.resources
  · refine absurd ?_ known
    simp only [registrationEffect, unknown, List.mem_singleton]
  · have same : {name | name ∈ (registrationEffect registration).resources}
        = {name | some name ∈ registration.resources.getD []} := Set.ext members
    exact same ▸ declared.footprint named

end

end PiFabric.Effects
