import PiFabric.State.Shadow

/-! Runs of shadow backends. The mirror only moves forward: a transaction is prepared inside the
database lock at an instant at which nothing has changed since its reads. And it forgets no request
that finds its loop open.
-/

namespace PiFabric.State.Shadow

open SingleRunner

variable {ι κ ε σ : Type} [DecidableEq κ]
  {stampOf : Nat → σ} {world next : World ι κ ε σ} {initial : JsMap κ ε}

/-- A pass took its stamp at an instant, and has read a key at that instant or later. -/
def ReadSince (world : World ι κ ε σ) (wanted : JsMap κ (Option ε)) (taken : Nat) (key : κ) : Prop :=
  ∃ instant, taken ≤ instant ∧ instant ≤ world.now
    ∧ (wanted.get? key).join = (world.file instant).get? key

def Read (stampOf : Nat → σ) (world : World ι κ ε σ) (want : Want κ) (stamp : σ)
    (wanted : JsMap κ (Option ε)) : Prop :=
  (want.full = false → ∀ key, key ∈ want.keys ↔ key ∈ wanted.keys)
  ∧ ∃ taken ≤ world.now, stamp = stampOf taken
    ∧ ∀ key, want.Covers key → ReadSince world wanted taken key

/-- What holds of a pass at each stage. Only the holder of the database is in a transaction. -/
def PassSound (stampOf : Nat → σ) (world : World ι κ ε σ) (who : ι) (want : Want κ)
    : Stage κ ε σ → Prop
  | .stamping => True
  | .reading stamp rest wanted =>
      (want.full = false → ∀ key, key ∈ want.keys ↔ key ∈ rest ∨ key ∈ wanted.keys)
      ∧ ∃ taken ≤ world.now, stamp = stampOf taken
        ∧ ∀ key ∈ wanted.keys, ReadSince world wanted taken key
  | .opening stamp wanted _ => Read stampOf world want stamp wanted
  | .holding stamp wanted _ => world.holder = some who ∧ Read stampOf world want stamp wanted
  | .prepared ops instant =>
      world.holder = some who ∧ instant ≤ world.now
      ∧ (∀ mirror ∈ world.mirrors, mirror.instant ≤ instant)
      ∧ (∀ key, want.Covers key →
        (applyOps world.shadow ops).get? key = (world.file instant).get? key)
      ∧ ∀ key, ¬want.Covers key →
        (applyOps world.shadow ops).get? key = world.shadow.get? key

/-- The mirrors so far, and every pass in progress. -/
structure WorldSound (stampOf : Nat → σ) (initial : JsMap κ ε) (world : World ι κ ε σ) : Prop where
  forward : Forward initial world
  passes : ∀ who want began stage, (world.backends who).loop = .passing want began stage →
    PassSound stampOf world who want stage

variable {who : ι} {want : Want κ} {stage : Stage κ ε σ}

/-- Commits of the file and steps of other passes keep what holds of a pass: the past of the file
stays, and nobody else writes while it holds the database.
-/
theorem PassSound.mono (sound : PassSound stampOf world who want stage)
    (later : world.now ≤ next.now)
    (past : ∀ instant ≤ world.now, next.file instant = world.file instant)
    (held : world.holder = some who → next.holder = some who ∧ next.shadow = world.shadow
      ∧ next.mirrors = world.mirrors)
    : PassSound stampOf next who want stage := by
  have since : ∀ {wanted taken key}, ReadSince world wanted taken key →
      ReadSince next wanted taken key := by
    rintro wanted taken key ⟨instant, low, high, same⟩
    exact ⟨instant, low, high.trans later, by rw [past instant high, same]⟩
  have read : ∀ {stamp wanted}, Read stampOf world want stamp wanted →
      Read stampOf next want stamp wanted := by
    rintro stamp wanted ⟨all, taken, known, same, reads⟩
    exact ⟨all, taken, known.trans later, same, fun key covers => since (reads key covers)⟩
  cases stage with
  | stamping => trivial
  | reading stamp rest wanted =>
      obtain ⟨all, taken, known, same, reads⟩ := sound
      exact ⟨all, taken, known.trans later, same, fun key member => since (reads key member)⟩
  | opening stamp wanted attempt => exact read sound
  | holding stamp wanted attempt => exact ⟨(held sound.1).1, read sound.2⟩
  | prepared ops instant =>
      obtain ⟨holds, known, ordered, result, others⟩ := sound
      obtain ⟨still, shadow, mirrors⟩ := held holds
      refine ⟨still, known.trans later, mirrors ▸ ordered, fun key covers => ?_, shadow ▸ others⟩
      rw [shadow, past instant known]
      exact result key covers

/-- A commit of the file keeps every pass and mirror: it only adds an instant. -/
theorem WorldSound.write {file : JsMap κ ε} (sound : WorldSound stampOf initial world)
    : WorldSound stampOf initial { world with
        file := Function.update world.file (world.now + 1) file
        now := world.now + 1 } := by
  have past : ∀ instant ≤ world.now,
      Function.update world.file (world.now + 1) file instant = world.file instant :=
    fun instant known => Function.update_of_ne (by omega) _ _
  constructor
  · have same : ∀ mirror ∈ world.mirrors, ∀ key,
        (Function.update world.file (world.now + 1) file mirror.instant).get? key
          = (world.file mirror.instant).get? key := fun mirror member key => by
      rw [past _ (sound.forward.past mirror member)]
    refine ⟨sound.forward.ordered, fun mirror member => ?_, fun mirror member key covers => ?_,
      fun key => ?_⟩
    · exact (sound.forward.past mirror member).trans (Nat.le_succ _)
    · exact (sound.forward.mirrored mirror member key covers).trans (same mirror member key).symm
    · rcases sound.forward.rows key with ⟨mirror, member, covers, row, newest⟩ | untouched
      · exact Or.inl ⟨mirror, member, covers, row.trans (same mirror member key).symm, newest⟩
      · exact Or.inr untouched
  · intro who want began stage passing
    exact (sound.passes who want began stage passing).mono (Nat.le_succ _) past
      fun held => ⟨held, rfl, rfl⟩

variable {began : Nat} {backend : Backend κ ε σ}

omit [DecidableEq κ] in
theorem look_stage {clock : Nat} (h : (backend.look clock).loop = .passing want began stage)
    : stage = .stamping := by
  simp only [Backend.look] at h
  split at h
  · exact (Loop.passing.inj h).2.2.symm
  · cases h

omit [DecidableEq κ] in
/-- `#kick` leaves the loop or starts a pass. -/
theorem kick_stage {clock : Nat} (h : (backend.kick clock).loop = .passing want began stage)
    : backend.loop = .passing want began stage ∨ stage = .stamping := by
  simp only [Backend.kick] at h
  split at h
  · exact Or.inl h
  · exact Or.inr (look_stage h)

theorem start_sound (file shadow : JsMap κ ε)
    : WorldSound stampOf shadow (.start file shadow : World ι κ ε σ) where
  forward := ⟨List.Pairwise.nil, by simp [World.start], by simp [World.start],
    fun key => Or.inr ⟨by simp [World.start], rfl⟩⟩
  passes := by
    intro who want began stage passing
    cases passing

variable [DecidableEq ι]

/-- A world with the same file, shadow, mirrors and holder keeps its passes, where one backend has
changed and its new pass is sound.
-/
theorem WorldSound.put (sound : WorldSound stampOf initial world)
    (own : ∀ want began stage, backend.loop = .passing want began stage →
      PassSound stampOf world who want stage)
    : WorldSound stampOf initial (world.put who backend) where
  forward := ⟨sound.forward.ordered, sound.forward.past, sound.forward.mirrored,
    sound.forward.rows⟩
  passes := by
    intro other want began stage passing
    by_cases same : other = who
    · subst same
      simp only [World.put, Function.update_self] at passing
      exact (own want began stage passing).mono le_rfl (fun _ _ => rfl) fun held => ⟨held, rfl, rfl⟩
    · simp only [World.put, Function.update_of_ne same] at passing
      exact (sound.passes other want began stage passing).mono le_rfl (fun _ _ => rfl)
        fun held => ⟨held, rfl, rfl⟩

theorem WorldSound.hold {loop : Loop κ ε σ} {holder : Option ι}
    (sound : WorldSound stampOf initial world)
    (others : ∀ other, other ≠ who → world.holder = some other → holder = some other)
    (own : ∀ want began stage, loop = .passing want began stage →
      PassSound stampOf { world.move who loop with holder } who want stage)
    : WorldSound stampOf initial { world.move who loop with holder } where
  forward := ⟨sound.forward.ordered, sound.forward.past, sound.forward.mirrored,
    sound.forward.rows⟩
  passes := by
    intro other want began stage passing
    by_cases same : other = who
    · subst same
      simp only [World.move, World.put, Function.update_self] at passing
      exact own want began stage passing
    · simp only [World.move, World.put, Function.update_of_ne same] at passing
      exact (sound.passes other want began stage passing).mono le_rfl (fun _ _ => rfl)
        fun held => ⟨others other same held, rfl, rfl⟩

/-- A transaction that is prepared commits what the file held at its instant, which is no earlier
than that of any mirror before it.
-/
theorem WorldSound.commit {instant : Nat} {ops : List (Op κ ε)}
    (sound : WorldSound stampOf initial world)
    (passing : (world.backends who).loop = .passing want began (.prepared ops instant))
    : WorldSound stampOf initial { world.move who .passed with
        shadow := applyOps world.shadow ops
        holder := none
        mirrors := world.mirrors ++ [⟨who, began, want, instant, applyOps world.shadow ops⟩] } := by
  obtain ⟨holds, known, ordered, result, others⟩ := sound.passes who want began _ passing
  constructor
  · refine ⟨?_, ?_, ?_, ?_⟩
    · refine List.pairwise_append.mpr ⟨sound.forward.ordered, List.pairwise_singleton _ _, ?_⟩
      intro earlier member later last
      rw [List.mem_singleton.mp last]
      exact ordered earlier member
    · intro mirror member
      rcases List.mem_append.mp member with member | last
      · exact sound.forward.past mirror member
      · rw [List.mem_singleton.mp last]
        exact known
    · intro mirror member key covers
      rcases List.mem_append.mp member with member | last
      · exact sound.forward.mirrored mirror member key covers
      · obtain rfl := List.mem_singleton.mp last
        exact result key covers
    · intro key
      by_cases covers : want.Covers key
      · refine Or.inl ⟨_, List.mem_append_right _ (List.mem_singleton_self _), covers,
          result key covers, fun other member _ => ?_⟩
        rcases List.mem_append.mp member with member | last
        · exact ordered other member
        · rw [List.mem_singleton.mp last]
      · rcases sound.forward.rows key with ⟨mirror, member, touched, row, newest⟩ | ⟨none_, row⟩
        · refine Or.inl ⟨mirror, List.mem_append_left _ member, touched,
            (others key covers).trans row, fun other member touches => ?_⟩
          rcases List.mem_append.mp member with member | last
          · exact newest other member touches
          · rw [List.mem_singleton.mp last] at touches
            exact absurd touches covers
        · refine Or.inr ⟨fun mirror member touches => ?_, (others key covers).trans row⟩
          rcases List.mem_append.mp member with member | last
          · exact none_ mirror member touches
          · rw [List.mem_singleton.mp last] at touches
            exact covers touches
  · intro other otherWant otherBegan stage passing
    by_cases same : other = who
    · subst same
      simp [World.move, World.put] at passing
    · simp only [World.move, World.put, Function.update_of_ne same] at passing
      refine (sound.passes other otherWant otherBegan stage passing).mono le_rfl
        (fun _ _ => rfl) fun held => ?_
      exact absurd (Option.some.inj (held.symm.trans holds)) same

theorem WorldSound.failPass {refused : Bool} (sound : WorldSound stampOf initial world)
    : WorldSound stampOf initial (world.failPass who want refused) := by
  have others : ∀ other, other ≠ who → world.holder = some other →
      (if world.holder = some who then none else world.holder) = some other := by
    intro other apart held
    rw [held, if_neg fun same => apart (Option.some.inj same)]
  have rolled := @hold _ _ _ _ _ stampOf world initial who _ (.failed want.full refused) _ sound
    others (by intro _ _ _ same; cases same)
  exact ⟨⟨rolled.forward.ordered, rolled.forward.past, rolled.forward.mirrored,
    rolled.forward.rows⟩, rolled.passes⟩

theorem WorldSound.loops (sound : WorldSound stampOf initial world)
    (h : ∀ want began stage, backend.loop = .passing want began stage →
      (world.backends who).loop = .passing want began stage ∨ stage = .stamping)
    : WorldSound stampOf initial (world.put who backend) := by
  refine sound.put fun want began stage passing => ?_
  rcases h want began stage passing with same | rfl
  · exact sound.passes who want began stage same
  · trivial

variable [DecidableEq ε] [DecidableEq σ]

/-- Every step of a pass keeps the world sound. A transaction is prepared only where the stamp still
holds, so at the instant of the stamp and of every read.
-/
theorem WorldSound.stepPass {event : Event ι κ ε} (injective : Function.Injective stampOf)
    (sound : WorldSound stampOf initial world)
    (passing : (world.backends who).loop = .passing want began stage)
    (taken : Shadow.stepPass stampOf world who want began stage event = some next)
    : WorldSound stampOf initial next := by
  have own := sound.passes who want began stage passing
  cases stage <;> cases event <;> simp only [Shadow.stepPass, reduceCtorEq] at taken
  case stamping.stamp =>
    obtain rfl := Option.some.inj taken
    refine sound.put fun _ _ _ same => ?_
    obtain ⟨rfl, rfl, rfl⟩ := Loop.passing.inj same
    exact ⟨fun _ key => by simp [JsMap.keys, JsMap.empty], world.now, le_rfl, rfl,
      by simp [JsMap.keys, JsMap.empty]⟩
  case reading.read stamp rest wanted _ =>
    obtain ⟨all, instant, known, rfl, reads⟩ := own
    split at taken
    · next full =>
        obtain rfl := Option.some.inj taken
        refine sound.put fun _ _ _ same => ?_
        obtain ⟨rfl, rfl, rfl⟩ := Loop.passing.inj same
        refine ⟨fun part => absurd (full.symm.trans part) (by simp), instant, known, rfl, ?_⟩
        exact fun key _ => ⟨world.now, known, le_rfl, get?_listed _ _⟩
    · next part =>
        simp only [Bool.not_eq_true] at part
        split at taken
        · next key rest =>
            obtain rfl := Option.some.inj taken
            refine sound.put fun _ _ _ same => ?_
            obtain ⟨rfl, rfl, rfl⟩ := Loop.passing.inj same
            have keys : ∀ other, other ∈ (wanted.set key ((world.file world.now).get? key)).keys
                ↔ other = key ∨ other ∈ wanted.keys := by
              intro other
              rw [JsMap.keys_set]
              split
              · next present =>
                  exact ⟨Or.inr, fun known => known.elim (fun same => same ▸ present) id⟩
              · simp [or_comm]
            refine ⟨fun part other => ?_, instant, known, rfl, fun other member => ?_⟩
            · rw [all part other, keys, List.mem_cons]
              tauto
            · by_cases same : other = key
              · subst same
                exact ⟨world.now, known, le_rfl, by rw [JsMap.get?_set_self, Option.join_some]⟩
              · obtain ⟨at_, low, high, value⟩ :=
                  reads other (((keys other).mp member).resolve_left same)
                exact ⟨at_, low, high, by rw [JsMap.get?_set, if_neg same, value]⟩
        · obtain rfl := Option.some.inj taken
          refine sound.put fun _ _ _ same => ?_
          obtain ⟨rfl, rfl, rfl⟩ := Loop.passing.inj same
          have done : ∀ key, key ∈ want.keys ↔ key ∈ wanted.keys := fun key => by
            simpa using all part key
          refine ⟨fun _ => done, instant, known, rfl, fun key covers => ?_⟩
          exact reads key ((done key).mp (covers.resolve_left (by simp [part])))
  case opening.begin stamp wanted attempt _ =>
    split at taken
    · next free =>
        obtain rfl := Option.some.inj taken
        refine sound.hold (fun other _ held => ?_) fun _ _ _ same => ?_
        · rw [free] at held
          cases held
        · obtain ⟨rfl, rfl, rfl⟩ := Loop.passing.inj same
          exact ⟨rfl, own⟩
    · cases taken
  case holding.prepare stamp wanted attempt _ =>
    obtain ⟨holds, asked, instant, known, rfl, reads⟩ := own
    split at taken
    · next unchanged =>
        obtain rfl := Option.some.inj taken
        obtain rfl := injective unchanged
        refine sound.put fun _ _ _ same => ?_
        obtain ⟨rfl, rfl, rfl⟩ := Loop.passing.inj same
        refine ⟨holds, le_rfl, sound.forward.past, fun key covers => ?_,
          fun key => get?_transaction_of_not_covers asked⟩
        obtain ⟨at_, low, high, value⟩ := reads key covers
        rw [get?_transaction asked covers, value, Nat.le_antisymm high low]
    · split at taken
      · obtain rfl := Option.some.inj taken
        refine sound.hold (fun other apart held => ?_) fun _ _ _ same => ?_
        · exact absurd (Option.some.inj (held.symm.trans holds)) apart
        · obtain ⟨rfl, rfl, rfl⟩ := Loop.passing.inj same
          exact ⟨asked, instant, known, rfl, reads⟩
      · obtain rfl := Option.some.inj taken
        exact sound.failPass
  case prepared.commit ops instant _ =>
    obtain rfl := Option.some.inj taken
    exact sound.commit passing

theorem WorldSound.stepAt {event : Event ι κ ε} (injective : Function.Injective stampOf)
    (sound : WorldSound stampOf initial world)
    (taken : Shadow.stepAt stampOf world event = some next)
    : WorldSound stampOf initial next := by
  have pass : ∀ who, passStep stampOf world event who = some next →
      WorldSound stampOf initial next := by
    intro who taken
    obtain ⟨want, began, stage, passing, stepped⟩ := passing_of_passStep taken
    exact sound.stepPass injective passing stepped
  have request : ∀ {other : World ι κ ε σ} who want, WorldSound stampOf initial other →
      WorldSound stampOf initial (other.request who want) := fun _ _ sound =>
    ⟨⟨sound.forward.ordered, sound.forward.past, sound.forward.mirrored, sound.forward.rows⟩,
      sound.passes⟩
  cases event with
  | write file =>
      obtain rfl := Option.some.inj taken
      exact sound.write
  | enqueue who keys =>
      obtain rfl := Option.some.inj taken
      have put : WorldSound stampOf initial
          (world.put who ((world.backends who).enqueue world.clock keys)) := by
        refine sound.loops fun want began stage h => ?_
        simp only [Backend.enqueue] at h
        split at h
        · exact Or.inl h
        · have started := kick_stage h
          exact started
      split
      · exact put
      · exact request who ⟨false, keys⟩ put
  | repair who =>
      obtain rfl := Option.some.inj taken
      refine request who ⟨true, []⟩ (sound.loops fun want began stage h => ?_)
      have started := kick_stage (h : ((world.backends who).repair world.clock).loop = _)
      exact started
  | stamp who => exact pass who taken
  | read who => exact pass who taken
  | begin who => exact pass who taken
  | prepare who => exact pass who taken
  | commit who => exact pass who taken
  | fail who refused =>
      simp only [Shadow.stepAt] at taken
      split at taken
      · obtain rfl := Option.some.inj taken
        exact sound.failPass
      · cases taken
  | resume who =>
      obtain ⟨backend, resumed, rfl⟩ := Option.map_eq_some_iff.mp taken
      refine sound.loops fun want began stage h => ?_
      simp only [Backend.resume] at resumed
      split at resumed
      · obtain rfl := Option.some.inj resumed
        exact Or.inr (look_stage h)
      · obtain rfl := Option.some.inj resumed
        cases h
      · cases resumed
  | clear who =>
      obtain ⟨backend, cleared, rfl⟩ := Option.map_eq_some_iff.mp taken
      refine sound.loops fun want began stage h => ?_
      simp only [Backend.clear] at cleared
      split at cleared
      · obtain rfl := Option.some.inj cleared
        cases h
      · cases cleared

/-- In every run the mirror only moves forward, by induction over its steps. -/
theorem Run.forward {file shadow : JsMap κ ε} {allowed : World ι κ ε σ → Event ι κ ε → Prop}
    (injective : Function.Injective stampOf) (run : Run stampOf file shadow allowed world)
    : WorldSound stampOf shadow world := by
  induction run with
  | start => exact start_sound file shadow
  | step _ _ taken ih =>
      obtain ⟨next, stepped, rfl⟩ := Option.map_eq_some_iff.mp taken
      have sound := ih.stepAt injective stepped
      exact ⟨⟨sound.forward.ordered, sound.forward.past, sound.forward.mirrored,
        sound.forward.rows⟩, sound.passes⟩

end PiFabric.State.Shadow
