import PiFabric.State.Readback

/-! Every run of commits, and the reads that its signals answer. What a store keeps was true of the
file that it kept it for, so no kept encoding, digest or header shows in what is written or read.
-/

namespace PiFabric.State

open JsString Outcome

variable {ι : Type} {digest : Digest}

def Holds (file : Option Bytes) (state : Document) : Prop :=
  ∃ maxBytes read, readState maxBytes false file = .ok read ∧ read.state = state

variable {file : Option Bytes} {left right : Document}

/-- Whatever the limit of a store, it reads the same state. -/
theorem Holds.unique (hl : Holds file left) (hr : Holds file right)
    : left = right := by
  obtain ⟨maxBytes, read, call, rfl⟩ := hl
  obtain ⟨maxBytes', read', call', rfl⟩ := hr
  cases file with
  | none =>
      obtain rfl := Except.ok.inj call
      obtain rfl := Except.ok.inj call'
      rfl
  | some bytes =>
      unfold readState at call call'
      dsimp only at call call'
      split at call
      · cases call
      · split at call'
        · cases call'
        · rw [Except.ok.inj (call.symm.trans call')]

variable {maxBytes : Nat}

/-- A tolerant read differs from a write's only where it takes damage for an empty mesh. -/
theorem tolerant_read {read : StateRead} (h : readState maxBytes true file = .ok read)
    : read.state = emptyDocument ∨ Holds file read.state := by
  have damaged {text : JsString} (h : readDamaged true text = .ok read)
      : read.state = emptyDocument ∨ readDamaged false text = .ok read := by
    unfold readDamaged at h ⊢
    split at h
    · exact .inr h
    · rw [if_pos rfl] at h
      exact .inl (by rw [← Except.ok.inj h])
  cases file with
  | none =>
      obtain rfl := Except.ok.inj h
      exact .inl rfl
  | some bytes =>
      unfold readState at h
      dsimp only at h
      split at h
      · cases h
      · next within =>
          have strict (same : decodeState false bytes = .ok read)
              : Holds (some bytes) read.state := by
            refine ⟨maxBytes, read, ?_, rfl⟩
            unfold readState
            dsimp only
            rw [if_neg within, same]
          have open_ : ∀ text, ¬((trim text).isEmpty && false) = true := by simp
          unfold decodeState at h strict
          dsimp only at h strict
          rw [if_neg (open_ _)] at strict
          split at h
          · exact .inl (by rw [← Except.ok.inj h])
          · split at h
            · next absent =>
                rw [absent] at strict
                exact (damaged h).imp_right strict
            · next parsed found =>
                rw [found] at strict
                dsimp only at strict
                split at h
                · next state document =>
                    rw [document] at strict
                    exact .inr (strict h)
                · next other =>
                    rw [other] at strict
                    split at h
                    · cases h
                    · next still =>
                        dsimp only at strict
                        rw [if_neg still] at strict
                        exact (damaged h).imp_right strict

theorem Holds.shaped {state : Document} (h : Holds file state)
    : Shaped state := by
  obtain ⟨maxBytes, read, call, rfl⟩ := h
  exact shaped_of_readState call

theorem keyed_empty : Keyed emptyDocument.entries :=
  fun _ _ found => nomatch found

/-- A commit that may be published. -/
structure Ready (digest : Digest) (prepared : PreparedStateCommit) : Prop where
  proper : Proper digest prepared
  keyed : Keyed prepared.stamped.entries
  shaped : Shaped prepared.stamped
  generation : isGeneration prepared.generation = true

/-- Kept encodings are those of the entries of the kept text. -/
def WriteEncodings.Sound (kept : WriteEncodings) : Prop :=
  ∀ parsed state, Json.parse kept.serialized = some parsed → meshStateFile parsed = some state →
    Drawn kept.entries state.entries

def Prepared.state : Prepared → Document
  | .locked state _ _ => state
  | .decided state _ => state

variable {state : Document}

/-- What a preparation hands over. -/
def Prepared.Sound (digest : Digest) : Prepared → Prop
  | .locked state reuse namespaces =>
      Shaped state ∧ Drawn reuse state.entries ∧ Foretells digest namespaces state
  | .decided state commit =>
      ∀ prepared, commit = some prepared → Keyed state.entries ∧ Ready digest prepared

structure Pending.Sound (digest : Digest) (mesh : Mesh ι) (pending : Pending) : Prop where
  identity : ∀ identity, pending.identity = some identity → identity < mesh.files
  aligned : pending.identity = mesh.identity → Holds mesh.bytes pending.prepared.state
  prepared : pending.prepared.Sound digest

/-- What a store keeps is true of the files that it was kept for. `origin` is the state file
before the first commit.
-/
structure Store.Sound (digest : Digest) (origin : Option Bytes) (mesh : Mesh ι) (store : Store)
    : Prop where
  kept : ∀ kept, store.writeEncodings = some kept → kept.Sound
  cache : ∀ cached, store.stateCache = some cached → Keyed cached.state.entries
    ∨ ∃ state, Holds origin state ∧ cached.state.entries = state.entries
  header : ∀ identity generation, store.canonicalHeader = some (identity, some generation) →
    identity < mesh.files ∧ ∀ commit ∈ mesh.commits, commit.published.identity = identity →
      commit.prepared.generation = generation
  index : ∀ index, store.signalIndex = some index → ∃ commit ∈ mesh.commits,
    index.generation = commit.prepared.generation
    ∧ index.namespaces = commit.prepared.namespaces
  pending : ∀ pending ∈ store.pending, pending.Sound digest mesh

structure Mesh.Sound (digest : Digest) (origin : Option Bytes) (mesh : Mesh ι) : Prop where
  ready : ∀ commit ∈ mesh.commits, Ready digest commit.prepared
    ∧ commit.published.bytes = commit.prepared.encoded.serialized
    ∧ commit.published.identity < mesh.files
  generations : mesh.commits.Pairwise fun earlier later =>
    earlier.prepared.generation ≠ later.prepared.generation
  identities : mesh.commits.Pairwise fun earlier later =>
    earlier.published.identity ≠ later.published.identity
  file : mesh.commits = [] ∧ mesh.bytes = origin
    ∨ ∃ commit ∈ mesh.commits, mesh.file = some commit.published
  bounded : ∀ file, mesh.file = some file → file.identity < mesh.files
  started : mesh.commits ≠ [] → ∃ state, Holds origin state ∧ Keyed state.entries
  signal : ∀ signal, mesh.signal = some signal →
    ∃ commit ∈ mesh.commits, ∃ identity witnessed, signal = commit.signal identity witnessed
  stores : ∀ owner, (mesh.stores owner).Sound digest origin mesh

/-- How a mesh goes on: new commits have new identities, and so has a new file. -/
structure Mesh.Extends (mesh next : Mesh ι) : Prop where
  commits : ∃ more, next.commits = mesh.commits ++ more
    ∧ ∀ commit ∈ more, mesh.files ≤ commit.published.identity
  files : mesh.files ≤ next.files
  file : next.file = mesh.file ∨ ∃ file, next.file = some file ∧ mesh.files ≤ file.identity

theorem Mesh.Extends.refl (mesh : Mesh ι) : mesh.Extends mesh where
  commits := ⟨[], by simp, fun _ member => nomatch member⟩
  files := le_rfl
  file := .inl rfl

variable {next : Mesh ι}

theorem Mesh.Extends.mem {mesh : Mesh ι} (h : mesh.Extends next) {commit : Commit}
    (member : commit ∈ mesh.commits)
    : commit ∈ next.commits := by
  obtain ⟨more, commits, -⟩ := h.commits
  rw [commits]
  exact List.mem_append_left _ member

variable {first : Mesh ι}

theorem Mesh.Extends.trans {second third : Mesh ι} (h : first.Extends second)
    (h' : second.Extends third)
    : first.Extends third := by
  obtain ⟨more, commits, above⟩ := h.commits
  obtain ⟨more', commits', above'⟩ := h'.commits
  refine ⟨⟨more ++ more', by rw [commits', commits, List.append_assoc], ?_⟩,
    h.files.trans h'.files, ?_⟩
  · intro commit member
    rcases List.mem_append.mp member with old | new
    · exact above commit old
    · exact h.files.trans (above' commit new)
  · rcases h'.file with same | ⟨file, present, bound⟩
    · rw [same]
      exact h.file
    · exact .inr ⟨file, present, h.files.trans bound⟩

variable {store : Store}

/-- What a store keeps stays true of a mesh that goes on. -/
theorem Store.Sound.extends {origin : Option Bytes} {mesh : Mesh ι}
    (h : store.Sound digest origin mesh) (more : mesh.Extends next)
    : store.Sound digest origin next where
  kept := h.kept
  cache := h.cache
  header := by
    intro identity generation found
    obtain ⟨bound, names⟩ := h.header identity generation found
    refine ⟨bound.trans_le more.files, ?_⟩
    obtain ⟨added, commits, above⟩ := more.commits
    intro commit member same
    rw [commits] at member
    rcases List.mem_append.mp member with old | new
    · exact names commit old same
    · have new := above commit new
      omega
  index := by
    intro index found
    obtain ⟨commit, member, facts⟩ := h.index index found
    exact ⟨commit, more.mem member, facts⟩
  pending := by
    intro pending member
    obtain ⟨bound, aligned, prepared⟩ := h.pending pending member
    refine ⟨fun identity same => (bound identity same).trans_le more.files, ?_, prepared⟩
    intro same
    rcases more.file with kept | ⟨file, present, above⟩
    · have identity : next.identity = mesh.identity := by rw [Mesh.identity, Mesh.identity, kept]
      have bytes : next.bytes = mesh.bytes := by rw [Mesh.bytes, Mesh.bytes, kept]
      rw [bytes]
      exact aligned (same.trans identity)
    · rw [Mesh.identity, present] at same
      have below := bound file.identity same
      omega

theorem observed_of_readState {recoverDamage : Bool} {read : StateRead} {text : JsString}
    (h : readState maxBytes recoverDamage file = .ok read) (observed : read.observed = some text)
    : ∃ parsed, Json.parse text = some parsed ∧ meshStateFile parsed = some read.state := by
  have damaged {other : JsString} (h : readDamaged recoverDamage other = .ok read) : False := by
    unfold readDamaged at h
    split at h
    · rw [← Except.ok.inj h] at observed
      cases observed
    · split at h
      · rw [← Except.ok.inj h] at observed
        cases observed
      · cases h
  cases file with
  | none =>
      rw [← Except.ok.inj h] at observed
      cases observed
  | some bytes =>
      unfold readState at h
      dsimp only at h
      split at h
      · cases h
      · unfold decodeState at h
        dsimp only at h
        split at h
        · rw [← Except.ok.inj h] at observed
          cases observed
        · split at h
          · exact (damaged h).elim
          · next parsed found =>
              split at h
              · next state document =>
                  rw [← Except.ok.inj h] at observed ⊢
                  rw [← Option.some.inj observed]
                  exact ⟨parsed, found, document⟩
              · split at h
                · cases h
                · exact (damaged h).elim

/-- The encodings that a write may reuse are those of the state that it read. -/
theorem readStateForWrite_sound {kept : Option WriteEncodings} {reuse : Encodings}
    (sound : ∀ encodings, kept = some encodings → encodings.Sound)
    (h : readStateForWrite maxBytes kept file = .ok (state, reuse))
    : Holds file state ∧ Drawn reuse state.entries := by
  obtain ⟨read, call, h⟩ := bind_eq_ok.mp h
  have holds : Holds file read.state := ⟨maxBytes, read, call, rfl⟩
  cases kept with
  | none =>
      obtain ⟨rfl, rfl⟩ := Prod.mk.inj (Except.ok.inj h)
      exact ⟨holds, .empty _⟩
  | some kept =>
      dsimp only at h
      split at h
      · next same =>
          obtain ⟨rfl, rfl⟩ := Prod.mk.inj (Except.ok.inj h)
          obtain ⟨parsed, text, document⟩ := observed_of_readState call same
          exact ⟨holds, sound kept rfl parsed _ text document⟩
      · obtain ⟨rfl, rfl⟩ := Prod.mk.inj (Except.ok.inj h)
        exact ⟨holds, .empty _⟩

variable {limits : StoreLimits} {request : Request} {now : Nat} {stamp : Stamp}
  {prepared : PreparedStateCommit}

/-- A write that is decided on a snapshot is ready to be published. -/
theorem decideWrite_ready {reuse : Encodings} {namespaces : JsMap JsString JsString}
    (h : decideWrite digest limits request now stamp state reuse namespaces = .ok (some prepared))
    (shaped : Shaped state) (drawn : Drawn reuse state.entries)
    (foretells : Foretells digest namespaces state)
    : Keyed state.entries ∧ Ready digest prepared := by
  obtain ⟨changed, applied, h⟩ := bind_eq_ok.mp h
  cases changed with
  | none => cases h
  | some changed =>
      obtain ⟨keys, next⟩ := changed
      obtain ⟨rewrites, before, after⟩ := Request.apply_rewrites applied
      obtain ⟨made, call, same⟩ := map_eq_ok.mp h
      obtain rfl := Option.some.inj same
      obtain ⟨proper, labelled, hash, stamped⟩ :=
        prepareStateCommit_proper call (drawn.serves rewrites) (foretells.unchanged rewrites)
      refine ⟨before, proper, ?_, ?_, ?_⟩
      · rw [stamped]
        exact after
      · rw [stamped]
        exact (Request.apply_shaped applied shaped).stamp _ _
      · rw [labelled]
        exact stamp.shaped

theorem prepareWrite_sound {kept : Option WriteEncodings} {prepared : Prepared}
    (sound : ∀ encodings, kept = some encodings → encodings.Sound)
    (h : prepareWrite digest limits kept request now stamp file = .ok prepared)
    : Holds file prepared.state ∧ prepared.Sound digest := by
  obtain ⟨⟨state, reuse⟩, read, h⟩ := bind_eq_ok.mp h
  obtain ⟨holds, drawn⟩ := readStateForWrite_sound sound read
  dsimp only at h
  split at h
  · next locked found =>
      obtain rfl := Except.ok.inj h
      exact ⟨holds, holds.shaped, drawn.outside locked, drawn.foretells locked⟩
  · obtain ⟨commit, decided, h⟩ := bind_eq_ok.mp h
    obtain rfl := Except.ok.inj h
    refine ⟨holds, fun prepared same => ?_⟩
    rw [same] at decided
    exact decideWrite_ready decided holds.shaped drawn (.empty state)

theorem commitWrite_sound {pending : Prepared} {commit : Option PreparedStateCommit}
    (sound : pending.Sound digest)
    (h : commitWrite digest limits request now stamp pending = .ok (state, commit))
    : state = pending.state
      ∧ ∀ prepared, commit = some prepared → Keyed state.entries ∧ Ready digest prepared := by
  cases pending with
  | locked before reuse namespaces =>
      obtain ⟨shaped, drawn, foretells⟩ := sound
      obtain ⟨decided, call, h⟩ := bind_eq_ok.mp h
      obtain ⟨rfl, rfl⟩ := Prod.mk.inj (Except.ok.inj h)
      refine ⟨rfl, fun prepared same => ?_⟩
      rw [same] at call
      exact decideWrite_ready call shaped drawn foretells
  | decided before made =>
      obtain ⟨rfl, rfl⟩ := Prod.mk.inj (Except.ok.inj h)
      exact ⟨rfl, sound⟩

variable {origin : Option Bytes} {mesh : Mesh ι}

/-- Commits that are apart are told apart by what tells them apart. -/
theorem eq_of_pairwise {κ : Type} {commits : List Commit} {label : Commit → κ}
    (apart : commits.Pairwise fun earlier later => label earlier ≠ label later)
    {left right : Commit} (hl : left ∈ commits) (hr : right ∈ commits)
    (same : label left = label right)
    : left = right := by
  by_contra other
  have symmetric : Std.Symm fun earlier later : Commit => label earlier ≠ label later :=
    ⟨fun _ _ differs => differs.symm⟩
  exact apart.forall hl hr other same

theorem Mesh.Sound.published (h : mesh.Sound digest origin) {file : Published}
    (present : mesh.file = some file) (some_ : mesh.commits ≠ [])
    : ∃ commit ∈ mesh.commits, commit.published = file := by
  rcases h.file with ⟨none_, -⟩ | ⟨commit, member, same⟩
  · exact absurd none_ some_
  · exact ⟨commit, member, Option.some.inj (same.symm.trans present)⟩

theorem Mesh.Sound.observed (h : mesh.Sound digest origin) {file : Published}
    (present : mesh.file = some file) {generation : JsString}
    (observed : observedGeneration mesh.signal file = some generation) {commit : Commit}
    (member : commit ∈ mesh.commits) (same : commit.published.identity = file.identity)
    : commit.prepared.generation = generation := by
  unfold observedGeneration at observed
  split at observed
  · next signal found =>
      obtain ⟨present, witnessed⟩ := Option.filter_eq_some_iff.mp found
      obtain ⟨other, listed, identity, shown, rfl⟩ := h.signal signal present
      have witness : other.published.identity = file.identity := by
        have named := of_decide_eq_true witnessed
        unfold Commit.signal at named
        dsimp only at named
        split at named
        · exact Option.some.inj named
        · cases named
      have equal := eq_of_pairwise h.identities member listed (same.trans witness.symm)
      rw [equal]
      exact Option.some.inj observed
  · obtain ⟨other, listed, published⟩ :=
      h.published present (List.ne_nil_of_mem member)
    have equal := eq_of_pairwise h.identities member listed (by rw [same, published])
    obtain ⟨ready, bytes, -⟩ := h.ready commit member
    obtain ⟨state, hash, stamped⟩ := ready.proper.stamped
    rw [← published, ← equal, bytes, ready.proper.bytes, stamped] at observed
    exact (headerGeneration_stamp ready.generation observed).symm

/-- The canonical generation names the commit whose file is there, and what a store keeps of it
stays true.
-/
theorem Mesh.Sound.canonical (h : mesh.Sound digest origin) (sound : store.Sound digest origin mesh)
    : (canonicalGeneration mesh store).2.Sound digest origin mesh
      ∧ ∀ generation, (canonicalGeneration mesh store).1 = some generation →
        mesh.commits ≠ [] → ∃ commit ∈ mesh.commits,
          mesh.file = some commit.published ∧ commit.prepared.generation = generation := by
  unfold canonicalGeneration
  cases present : mesh.file with
  | none => exact ⟨sound, fun _ found => nomatch found⟩
  | some file =>
      dsimp only
      split
      · next header found =>
          obtain ⟨kept, named⟩ := Option.filter_eq_some_iff.mp found
          refine ⟨sound, fun generation same some_ => ?_⟩
          obtain ⟨commit, member, published⟩ := h.published present some_
          have memo : store.canonicalHeader = some (header.1, some generation) := by
            rw [kept, ← same]
          refine ⟨commit, member, by rw [published], ?_⟩
          refine (sound.header _ _ memo).2 commit member ?_
          rw [published, of_decide_eq_true named]
      · refine ⟨⟨sound.kept, sound.cache, ?_, sound.index, sound.pending⟩, ?_⟩
        · intro identity generation kept
          obtain ⟨rfl, observed⟩ := Prod.mk.inj (Option.some.inj kept)
          exact ⟨h.bounded file present,
            fun commit member same => h.observed present observed member same⟩
        · intro generation observed some_
          obtain ⟨commit, member, published⟩ := h.published present some_
          refine ⟨commit, member, by rw [published], ?_⟩
          exact h.observed present observed member (by rw [published])

theorem Mesh.Sound.indexed (h : mesh.Sound digest origin) (sound : store.Sound digest origin mesh)
    : (readSignalIndex mesh store).2.Sound digest origin mesh
      ∧ ∀ index, (readSignalIndex mesh store).1 = some index →
        ∃ commit ∈ mesh.commits, index.generation = commit.prepared.generation
          ∧ index.namespaces = commit.prepared.namespaces := by
  unfold readSignalIndex
  cases present : mesh.signal with
  | none => exact ⟨sound, fun _ found => nomatch found⟩
  | some signal =>
      dsimp only
      obtain ⟨commit, member, identity, witnessed, rfl⟩ := h.signal signal present
      split
      · exact ⟨sound, fun index found => sound.index index found⟩
      · split
        · next index found =>
            refine ⟨sound, fun index' same => ?_⟩
            obtain rfl := Option.some.inj same
            exact sound.index index (Option.filter_eq_some_iff.mp found).1
        · refine ⟨⟨sound.kept, sound.cache, sound.header, ?_, sound.pending⟩, ?_⟩
          · intro index kept
            rw [← Option.some.inj kept]
            exact ⟨commit, member, rfl, rfl⟩
          · intro index found
            rw [← Option.some.inj found]
            exact ⟨commit, member, rfl, rfl⟩

variable [DecidableEq ι]

theorem Mesh.Sound.setStore (h : mesh.Sound digest origin) (owner : ι)
    (sound : store.Sound digest origin mesh)
    : (mesh.setStore owner store).Sound digest origin where
  ready := h.ready
  generations := h.generations
  identities := h.identities
  file := h.file
  bounded := h.bounded
  started := h.started
  signal := h.signal
  stores := by
    intro other
    have same : mesh.Extends (mesh.setStore owner store) :=
      ⟨⟨[], by simp [Mesh.setStore], fun _ member => nomatch member⟩, le_rfl, .inl rfl⟩
    unfold Mesh.setStore
    dsimp only
    split
    · exact sound.extends same
    · exact (h.stores other).extends same

theorem Ready.kept (ready : Ready digest prepared)
    : WriteEncodings.Sound {
        serialized := prepared.serializedText
        entries := prepared.encoded.entries
      } := by
  intro parsed state text document
  dsimp only at text
  rw [ready.proper.text, Json.parse_stringify] at text
  obtain rfl := Option.some.inj text
  obtain ⟨read, found, entries⟩ := ready.shaped.read
  obtain rfl := Option.some.inj (found.symm.trans document)
  intro key cached present
  obtain ⟨value, held, encoded⟩ := ready.proper.drawn key cached present
  exact ⟨value, (entries key).trans held, encoded⟩

theorem Mesh.Sound.publish (h : mesh.Sound digest origin) (owner : ι)
    (ready : Ready digest prepared)
    (fresh : ∀ other ∈ mesh.commits, other.prepared.generation ≠ prepared.generation)
    (holds : Holds mesh.bytes state) (keyed : Keyed state.entries) (stamp : JsString) (now : Nat)
    : (mesh.publish owner prepared stamp now).Sound digest origin := by
  have more : mesh.Extends (mesh.publish owner prepared stamp now) :=
    ⟨⟨[_], rfl, fun commit member => by rw [List.mem_singleton.mp member]⟩, Nat.le_succ _,
      .inr ⟨_, rfl, le_rfl⟩⟩
  constructor
  case ready =>
    intro commit member
    rcases List.mem_append.mp member with old | new
    · obtain ⟨made, bytes, bound⟩ := h.ready commit old
      exact ⟨made, bytes, bound.trans (Nat.lt_succ_self _)⟩
    · rw [List.mem_singleton.mp new]
      exact ⟨ready, rfl, Nat.lt_succ_self _⟩
  case generations =>
    refine List.pairwise_append.mpr ⟨h.generations, List.pairwise_singleton _ _, ?_⟩
    intro commit old other new
    rw [List.mem_singleton.mp new]
    exact fresh commit old
  case identities =>
    refine List.pairwise_append.mpr ⟨h.identities, List.pairwise_singleton _ _, ?_⟩
    intro commit old other new
    rw [List.mem_singleton.mp new]
    exact (h.ready commit old).2.2.ne
  case file => exact .inr ⟨_, List.mem_append_right _ (List.mem_singleton_self _), rfl⟩
  case bounded =>
    intro file present
    rw [← Option.some.inj present]
    exact Nat.lt_succ_self _
  case started =>
    intro _
    by_cases none_ : mesh.commits = []
    · rcases h.file with ⟨-, same⟩ | ⟨commit, member, -⟩
      · rw [← same]
        exact ⟨state, holds, keyed⟩
      · rw [none_] at member
        cases member
    · exact h.started none_
  case signal =>
    intro signal present
    obtain ⟨commit, member, shown⟩ := h.signal signal present
    exact ⟨commit, List.mem_append_left _ member, shown⟩
  case stores =>
    intro other
    have others := (h.stores other).extends more
    unfold Mesh.publish Mesh.setStore
    dsimp only
    split
    · next same =>
        have own := (h.stores owner).extends more
        refine ⟨?_, ?_, own.header, own.index, own.pending⟩
        · intro kept found
          rw [← Option.some.inj found]
          exact ready.kept
        · intro cached found
          rw [← Option.some.inj found]
          exact .inl ready.keyed
    · exact others

omit [DecidableEq ι] in
theorem Mesh.Sound.cached (h : mesh.Sound digest origin) (holds : Holds mesh.bytes state)
    : Keyed state.entries ∨ ∃ first, Holds origin first ∧ state.entries = first.entries := by
  rcases h.file with ⟨-, same⟩ | ⟨commit, member, present⟩
  · exact .inr ⟨state, same ▸ holds, rfl⟩
  · obtain ⟨ready, bytes, -⟩ := h.ready commit member
    obtain ⟨read, call, -, -, entries⟩ := ready.shaped.decode false
    have own : Holds mesh.bytes read.state := by
      refine ⟨(Json.bytes commit.prepared.stamped.json).length, read, ?_, rfl⟩
      rw [Mesh.bytes, present, Option.map_some, bytes, ready.proper.bytes, readState]
      rw [if_neg (lt_irrefl _), call]
    rw [holds.unique own]
    exact .inl fun key value found => ready.keyed key value ((entries key).symm.trans found)

theorem Mesh.Sound.step (h : mesh.Sound digest origin) (step : Step digest mesh next)
    : next.Sound digest origin ∧ mesh.Extends next := by
  have unchanged (owner : ι) (store : Store) : mesh.Extends (mesh.setStore owner store) :=
    ⟨⟨[], by simp [Mesh.setStore], fun _ member => nomatch member⟩, le_rfl, .inl rfl⟩
  cases step with
  | prepare owner request now stamp call =>
      have own := h.stores owner
      obtain ⟨holds, prepared⟩ := prepareWrite_sound own.kept call
      refine ⟨h.setStore owner ⟨own.kept, own.cache, own.header, own.index, ?_⟩, unchanged ..⟩
      intro pending member
      rcases List.mem_append.mp member with old | new
      · exact own.pending pending old
      · rw [List.mem_singleton.mp new]
        refine ⟨fun identity same => ?_, fun _ => holds, prepared⟩
        obtain ⟨file, present, rfl⟩ := Option.map_eq_some_iff.mp same
        exact h.bounded file present
  | @commit owner pending now stamp state prepared fileStamp member held call fresh =>
      obtain ⟨-, aligned, sound⟩ := (h.stores owner).pending pending member
      obtain ⟨same, made⟩ := commitWrite_sound sound call
      obtain ⟨keyed, ready⟩ := made prepared rfl
      have holds : Holds mesh.bytes state := same ▸ aligned held
      refine ⟨h.publish owner ready fresh holds keyed fileStamp now, ⟨[_], rfl, ?_⟩,
        Nat.le_succ _, .inr ⟨_, rfl, le_rfl⟩⟩
      exact fun commit member => by rw [List.mem_singleton.mp member]
  | @unchanged owner pending now stamp state member held call =>
      have own := h.stores owner
      obtain ⟨-, aligned, sound⟩ := own.pending pending member
      obtain ⟨same, -⟩ := commitWrite_sound sound call
      refine ⟨h.setStore owner ⟨own.kept, ?_, own.header, own.index, own.pending⟩, unchanged ..⟩
      intro cached found
      rw [← Option.some.inj found]
      exact h.cached (same ▸ aligned held)
  | @signal commit identity witnessed member same =>
      refine ⟨⟨h.ready, h.generations, h.identities, h.file, h.bounded, h.started, ?_, ?_⟩,
        ⟨[], by simp, fun _ member => nomatch member⟩, le_rfl, .inl rfl⟩
      · intro signal present
        rw [← Option.some.inj present]
        exact ⟨commit, member, identity, witnessed, rfl⟩
      · intro owner
        exact (h.stores owner).extends
          ⟨⟨[], by simp, fun _ member => nomatch member⟩, le_rfl, .inl rfl⟩
  | @parse owner now bytes read present call =>
      have own := h.stores owner
      refine ⟨h.setStore owner ⟨own.kept, ?_, own.header, own.index, own.pending⟩, unchanged ..⟩
      intro cached found
      rw [← Option.some.inj found]
      rcases tolerant_read call with empty | holds
      · refine .inl ?_
        dsimp only
        rw [empty]
        exact keyed_empty
      · exact h.cached (present ▸ holds)
  | header owner => exact ⟨h.setStore owner (h.canonical (h.stores owner)).1, unchanged ..⟩
  | index owner => exact ⟨h.setStore owner (h.indexed (h.stores owner)).1, unchanged ..⟩
  | drop owner pending rest =>
      have own := h.stores owner
      refine ⟨h.setStore owner ⟨own.kept, (fun _ found => nomatch found), own.header, own.index,
        fun left member => own.pending left (rest.subset member)⟩, unchanged ..⟩

/-- Every run keeps it, by induction over the run. -/
theorem Mesh.Sound.steps (h : mesh.Sound digest origin) (steps : Steps digest mesh next)
    : next.Sound digest origin ∧ mesh.Extends next := by
  induction steps with
  | refl => exact ⟨h, .refl _⟩
  | step _ step ih =>
      obtain ⟨sound, extends_⟩ := ih
      obtain ⟨sound', extends'⟩ := sound.step step
      exact ⟨sound', extends_.trans extends'⟩

omit [DecidableEq ι] in
theorem Untouched.sound (start : Untouched mesh) : mesh.Sound digest mesh.bytes := by
  have none_ (commit : Commit) : commit ∉ mesh.commits := by
    rw [start.commits]
    exact List.not_mem_nil
  constructor
  case ready => exact fun commit member => absurd member (none_ commit)
  case generations =>
    rw [start.commits]
    exact List.Pairwise.nil
  case identities =>
    rw [start.commits]
    exact List.Pairwise.nil
  case file => exact .inl ⟨start.commits, rfl⟩
  case bounded => exact start.identity
  case started => exact fun some_ => absurd start.commits some_
  case signal =>
    intro signal present
    rw [start.signal] at present
    cases present
  case stores =>
    intro owner
    obtain ⟨kept, cache, header, index, -, pending⟩ := start.idle owner
    refine ⟨?_, ?_, ?_, ?_, ?_⟩
    · simp [kept]
    · simp [cache]
    · simp [header]
    · simp [index]
    · simp [pending]

def hashedBytes (state : Document) (space : JsString) : Bytes :=
  LineLog.join ((namespaceEntries state space).map Json.bytes)

variable {space : JsString}

theorem namespaceEntries_of_hashed (same : hashedBytes left space = hashedBytes right space)
    : namespaceEntries left space = namespaceEntries right space := by
  have lines (state : Document) : (LineLog.split (hashedBytes state space)).1
      = (namespaceEntries state space).map Json.bytes := by
    have clean : ∀ line ∈ (namespaceEntries state space).map Json.bytes,
        LineLog.newline ∉ line := by
      intro line member
      obtain ⟨value, -, rfl⟩ := List.mem_map.mp member
      exact Json.newline_not_mem_bytes value
    have whole := LineLog.split_join clean []
    rw [List.append_nil] at whole
    rw [hashedBytes, whole]
    exact List.append_nil _
  have mapped := lines left
  rw [same, lines right] at mapped
  exact (List.map_injective_iff.mpr (fun _ _ => Json.bytes_injective) mapped).symm

theorem mem_namespaceEntries (own : IsNamespace space) {value : Json}
    : value ∈ namespaceEntries state space
      ↔ ∃ key, keyNamespace key = some space ∧ state.entries.get? key = some value := by
  have listed : (objectKeys state.entries).Perm state.entries.keys := perm_enumerated _ _
  rw [namespaceEntries, List.mem_filterMap]
  constructor
  · rintro ⟨key, member, found⟩
    have within := (List.mem_filter.mp ((perm_sorted _).mem_iff.mp member)).2
    rw [keyNamespace_of_isPrefixOf own] at within
    exact ⟨key, of_decide_eq_true within, found⟩
  · rintro ⟨key, within, found⟩
    refine ⟨key, (perm_sorted _).mem_iff.mpr (List.mem_filter.mpr ⟨?_, ?_⟩), found⟩
    · rw [listed.mem_iff, ← JsMap.has_iff]
      exact JsMap.has_of_get? found
    · rw [keyNamespace_of_isPrefixOf own]
      exact decide_eq_true within

theorem get?_of_namespaceEntries (own : IsNamespace space) (keyedLeft : Keyed left.entries)
    (keyedRight : Keyed right.entries)
    (same : namespaceEntries left space = namespaceEntries right space) {key : JsString}
    (within : keyNamespace key = some space)
    : left.entries.get? key = right.entries.get? key := by
  have carries {first second : Document} (keyedFirst : Keyed first.entries)
      (keyedSecond : Keyed second.entries)
      (same : namespaceEntries first space = namespaceEntries second space) {value : Json}
      (found : first.entries.get? key = some value)
      : second.entries.get? key = some value := by
    have member := (mem_namespaceEntries own).mpr ⟨key, within, found⟩
    rw [same] at member
    obtain ⟨other, -, held⟩ := (mem_namespaceEntries own).mp member
    have named := (keyedFirst key value found).symm.trans (keyedSecond other value held)
    obtain rfl : key = other := by simpa using named
    exact held
  apply Option.ext
  intro value
  exact ⟨carries keyedLeft keyedRight same, carries keyedRight keyedLeft same.symm⟩

variable {front : JsString}

/-- The entries under a prefix, before they are sorted. -/
theorem select_eq {locale : JsString → JsString → Bool} (keyed : Keyed state.entries)
    (some_ : front ≠ [])
    : select locale state front
      = (((membersOf state.entries).filter fun entry => front.isPrefixOf entry.1).map
          Prod.snd).mergeSort fun left right => locale (entryKey left) (entryKey right) := by
  have listed : ((membersOf state.entries).map Prod.snd).filter (fun entry =>
        front.isEmpty || front.isPrefixOf (entryKey entry))
      = ((membersOf state.entries).filter fun entry => front.isPrefixOf entry.1).map Prod.snd := by
    rw [List.filter_map]
    refine congrArg (List.map Prod.snd) (List.filter_congr fun entry member => ?_)
    have named := keyed entry.1 entry.2 (mem_membersOf.mp member)
    rw [Function.comp_apply, entryKey, named, List.isEmpty_eq_false_iff.mpr some_, Bool.false_or]
    rfl
  rw [select, listed]

/-- `localeCompare` is a linear order. -/
structure Collates (locale : JsString → JsString → Bool) : Prop where
  total : ∀ left right, (locale left right || locale right left) = true
  trans : ∀ left middle right, locale left middle = true → locale middle right = true →
    locale left right = true
  antisymm : ∀ left right, locale left right = true → locale right left = true → left = right

/-- Two states that agree under a prefix are listed alike. -/
theorem select_congr {locale : JsString → JsString → Bool} (some_ : front ≠ [])
    (keyedLeft : Keyed left.entries) (keyedRight : Keyed right.entries)
    (same : ∀ key, front <+: key → left.entries.get? key = right.entries.get? key)
    : (select locale left front).Perm (select locale right front)
      ∧ (Collates locale → select locale left front = select locale right front) := by
  have nodup (state : Document) : (membersOf state.entries).Nodup :=
    (perm_enumerated Prod.fst _).nodup_iff.mpr (List.Nodup.of_map Prod.fst state.entries.distinct)
  have members : ((membersOf left.entries).filter fun entry => front.isPrefixOf entry.1).Perm
      ((membersOf right.entries).filter fun entry => front.isPrefixOf entry.1) := by
    refine (List.perm_ext_iff_of_nodup ((nodup left).filter _) ((nodup right).filter _)).mpr ?_
    rintro ⟨key, value⟩
    rw [List.mem_filter, List.mem_filter, mem_membersOf, mem_membersOf]
    refine and_congr_left fun within => ?_
    rw [same key (List.isPrefixOf_iff_prefix.mp within)]
  have perm : (select locale left front).Perm (select locale right front) := by
    rw [select_eq keyedLeft some_, select_eq keyedRight some_]
    exact (List.mergeSort_perm _ _).trans
      ((members.map Prod.snd).trans (List.mergeSort_perm _ _).symm)
  refine ⟨perm, fun collates => ?_⟩
  have named (value : Json) (member : value ∈ select locale right front)
      : ∃ key, right.entries.get? key = some value ∧ entryKey value = key := by
    rw [select_eq keyedRight some_, List.mem_mergeSort] at member
    obtain ⟨⟨key, held⟩, inside, rfl⟩ := List.mem_map.mp member
    have found := mem_membersOf.mp (List.mem_filter.mp inside).1
    refine ⟨key, found, ?_⟩
    rw [entryKey, keyedRight key _ found]
    rfl
  have sorted (state : Document) : (select locale state front).Pairwise fun left right =>
      locale (entryKey left) (entryKey right) = true :=
    List.pairwise_mergeSort
      (fun left middle right => collates.trans (entryKey left) (entryKey middle) (entryKey right))
      (fun left right => collates.total (entryKey left) (entryKey right)) _
  refine perm.eq_of_pairwise ?_ (sorted left) (sorted right)
  intro value other member listed below above
  obtain ⟨key, found, own⟩ := named value (perm.mem_iff.mp member)
  obtain ⟨key', found', own'⟩ := named other listed
  have equal := collates.antisymm _ _ below above
  rw [own, own'] at equal
  rw [equal, found'] at found
  exact (Option.some.inj found).symm

variable {owner : ι}

theorem Mesh.Sound.signalled (h : mesh.Sound digest origin) {background : Bool} {looks : Looks ι}
    (follow : looks.Follow digest mesh) (injective : ∀ commit ∈ looks.recheck.commits, ∀ space,
      digest (hashedBytes state space) = digest (hashedBytes commit.prepared.stamped space) →
        hashedBytes state space = hashedBytes commit.prepared.stamped space)
    (answered : signalledState digest (mesh.stores owner) front background now looks = some state)
    : ∃ commit ∈ looks.recheck.commits, looks.recheck.file = some commit.published
      ∧ front ≠ [] ∧ Keyed state.entries ∧ ∀ key, front <+: key →
        state.entries.get? key = commit.prepared.stamped.entries.get? key := by
  obtain ⟨atBefore, grows⟩ := h.steps follow.before
  obtain ⟨atHeader, grows'⟩ := atBefore.steps follow.header
  obtain ⟨atIndex, toIndex⟩ := atHeader.steps follow.index
  obtain ⟨atAfter, toAfter⟩ := atIndex.steps follow.after
  obtain ⟨atRecheck, toRecheck⟩ := atAfter.steps follow.recheck
  have atStore := (h.stores owner).extends (grows.trans grows')
  obtain ⟨cached, kept, answered⟩ := Option.bind_eq_some_iff.mp answered
  obtain ⟨space, prefixed, answered⟩ := Option.bind_eq_some_iff.mp answered
  obtain ⟨own, inside⟩ := keyNamespace_eq_some_iff.mp prefixed
  obtain ⟨-, -, answered⟩ := Option.bind_eq_some_iff.mp answered
  obtain ⟨before, -, answered⟩ := Option.bind_eq_some_iff.mp answered
  have headed := (atHeader.canonical atStore).1
  obtain ⟨current, -, answered⟩ := Option.bind_eq_some_iff.mp answered
  obtain ⟨-, -, answered⟩ := Option.bind_eq_some_iff.mp answered
  have indexed := atIndex.indexed (headed.extends toIndex)
  obtain ⟨index, found, answered⟩ := Option.bind_eq_some_iff.mp answered
  obtain ⟨_, labelled, answered⟩ := Option.bind_eq_some_iff.mp answered
  obtain ⟨-, -, answered⟩ := Option.bind_eq_some_iff.mp answered
  obtain ⟨_, rechecked, answered⟩ := Option.bind_eq_some_iff.mp answered
  obtain ⟨_, expected, answered⟩ := Option.bind_eq_some_iff.mp answered
  obtain rfl := Option.some.inj answered
  obtain ⟨commit, listed, named, digests⟩ := indexed.2 index found
  have member := (toAfter.trans toRecheck).mem listed
  have label : index.generation = current := ((Option.guard_eq_some' _).mp labelled).1
  have again := (Option.guard_eq_some' _).mp rechecked
  have compared := (Option.guard_eq_some' _).mp expected
  obtain ⟨same, listed', present, generation⟩ := (atRecheck.canonical
    (indexed.1.extends (toAfter.trans toRecheck))).2 current again (List.ne_nil_of_mem member)
  obtain rfl := eq_of_pairwise atRecheck.generations listed' member
    (by rw [generation, ← named, label])
  obtain ⟨ready, -, -⟩ := atRecheck.ready same member
  have hashed : digest (hashedBytes cached.state space)
      = digest (hashedBytes same.prepared.stamped space) := by
    have vouched : (index.namespaces.get? space).getD (emptyDigest digest)
        = namespaceDigest digest same.prepared.stamped space := by
      rw [digests, ready.proper.index, indexOf]
      by_cases none_ : namespaceEntries same.prepared.stamped space = []
      · rw [if_neg fun both => both.2 none_, namespaceDigest, none_]
        rfl
      · rw [if_pos ⟨isNamespace_iff.mp own, none_⟩]
        rfl
    exact compared.symm.trans vouched
  have keyed : Keyed cached.state.entries := by
    rcases (h.stores owner).cache cached kept with keyed | ⟨first, holds, entries⟩
    · exact keyed
    · obtain ⟨begun, started, keyed⟩ := atRecheck.started (List.ne_nil_of_mem member)
      rw [entries, holds.unique started]
      exact keyed
  refine ⟨same, member, present, ?_, keyed, ?_⟩
  · rintro rfl
    cases prefixed
  · intro key within
    refine get?_of_namespaceEntries own keyed ready.keyed
      (namespaceEntries_of_hashed (injective same member space hashed)) ?_
    exact keyNamespace_eq_some_iff.mpr ⟨own, inside.trans within⟩

/-- In every run every commit writes its state as `JSON.stringify` does and the digests of its
namespaces, every signal holds the digests of a commit, and a list that an older parse answers
has the entries of the file that is there when its last check ends.
-/
theorem incremental_encoding_is_plain {first mesh : Mesh ι} (start : Untouched first)
    (steps : Steps digest first mesh)
    : (∀ commit ∈ mesh.commits,
        commit.published.bytes = Json.bytes commit.prepared.stamped.json
        ∧ ∀ space, commit.prepared.namespaces.get? space
          = indexOf digest commit.prepared.stamped space)
      ∧ (∀ signal, mesh.signal = some signal → ∃ commit ∈ mesh.commits,
          signal.generation = commit.prepared.generation
          ∧ ∀ space, signal.namespaces.get? space = indexOf digest commit.prepared.stamped space)
      ∧ ∀ (owner : ι) (front : JsString) (background : Bool) (now : Nat) (looks : Looks ι)
          (state : Document), looks.Follow digest mesh →
          (∀ commit ∈ looks.recheck.commits, ∀ space,
            digest (hashedBytes state space)
                = digest (hashedBytes commit.prepared.stamped space) →
              hashedBytes state space = hashedBytes commit.prepared.stamped space) →
          signalledState digest (mesh.stores owner) front background now looks = some state →
          ∃ file read, looks.recheck.file = some file
            ∧ decodeState true file.bytes = .ok read
            ∧ ∀ locale, (select locale state front).Perm (select locale read.state front)
              ∧ (Collates locale → select locale state front = select locale read.state front) := by
  have sound := (start.sound.steps steps).1
  refine ⟨?_, ?_, ?_⟩
  · intro commit member
    obtain ⟨ready, bytes, -⟩ := sound.ready commit member
    exact ⟨bytes.trans ready.proper.bytes, ready.proper.index⟩
  · intro signal present
    obtain ⟨commit, member, identity, witnessed, rfl⟩ := sound.signal signal present
    exact ⟨commit, member, rfl, (sound.ready commit member).1.proper.index⟩
  · intro owner front background now looks state follow injective answered
    obtain ⟨commit, member, present, some_, keyed, agrees⟩ :=
      sound.signalled follow injective answered
    have last := ((((sound.steps follow.before).1.steps follow.header).1.steps
      follow.index).1.steps follow.after).1.steps follow.recheck
    obtain ⟨ready, bytes, -⟩ := last.1.ready commit member
    obtain ⟨read, call, -, -, entries⟩ := ready.shaped.decode true
    refine ⟨commit.published, read, present, ?_, fun locale => ?_⟩
    · rw [bytes, ready.proper.bytes, call]
    · refine select_congr some_ keyed ?_ fun key within => ?_
      · exact fun key value found => ready.keyed key value ((entries key).symm.trans found)
      · rw [agrees key within, entries]

/-- A write that nothing interrupts, from its snapshot to its commit. -/
def Mesh.write (digest : Digest) (mesh : Mesh ι) (owner : ι) (request : Request) (now : Nat)
    (stamp : Stamp) (fileStamp : JsString) : Mesh ι :=
  match prepareWrite digest (mesh.stores owner).limits (mesh.stores owner).writeEncodings request
    now stamp mesh.bytes with
  | .error _ => mesh
  | .ok prepared =>
      let waiting := mesh.setStore owner {
        mesh.stores owner with
        pending := (mesh.stores owner).pending ++ [{ request, identity := mesh.identity, prepared }]
      }
      match commitWrite digest (mesh.stores owner).limits request now stamp prepared with
      | .ok (_, some made) =>
          if mesh.commits.all fun other => other.prepared.generation != made.generation then
            waiting.publish owner made fileStamp now
          else waiting
      | _ => waiting

/-- The signal of the last commit, where the file is still its own. -/
def Mesh.signalLast (mesh : Mesh ι) : Mesh ι :=
  match mesh.commits.getLast? with
  | none => mesh
  | some commit =>
      if mesh.stamp = some commit.published.stamp then
        { mesh with signal := some (commit.signal mesh.files true) }
      else mesh

def Mesh.parse (mesh : Mesh ι) (owner : ι) (now : Nat) : Mesh ι :=
  match mesh.bytes with
  | none => mesh
  | some bytes =>
      match readState (mesh.stores owner).limits.maxStateBytes true (some bytes) with
      | .error _ => mesh
      | .ok read =>
          mesh.setStore owner {
            mesh.stores owner with
            stateCache := some {
              state := read.state
              generation := generationOf read.state
              parsedAt := now
            }
          }

theorem Mesh.parse_steps (steps : Steps digest first mesh)
    : Steps digest first (mesh.parse owner now) := by
  unfold Mesh.parse
  split
  · exact steps
  · next bytes present =>
      split
      · exact steps
      · next read call => exact steps.step (.parse owner now present call)

theorem Mesh.write_steps {fileStamp : JsString} (steps : Steps digest first mesh)
    : Steps digest first (mesh.write digest owner request now stamp fileStamp) := by
  unfold Mesh.write
  split
  · exact steps
  · next prepared call =>
      have waiting := steps.step (.prepare owner request now stamp call)
      dsimp only
      split
      · next state made commit =>
          split
          · next fresh =>
              refine waiting.step (@Step.commit ι _ digest _ owner
                { request, identity := mesh.identity, prepared } now stamp state made fileStamp
                ?_ rfl ?_ ?_)
              · simp [Mesh.setStore]
              · simpa [Mesh.setStore] using commit
              · intro other member
                exact bne_iff_ne.mp (List.all_eq_true.mp fresh other member)
          · exact waiting
      · exact waiting

theorem Mesh.signalLast_steps (steps : Steps digest first mesh)
    : Steps digest first mesh.signalLast := by
  unfold Mesh.signalLast
  split
  · exact steps
  · next commit last =>
      split
      · next same => exact steps.step (.signal _ _ (List.mem_of_getLast? last) same)
      · exact steps

def idleStore : Store where
  limits := {
    limits := { maxEventBytes := 1000, maxStateTombstones := 10 }
    maxStateBytes := 10000
  }
  readCacheMs := 1
  backgroundReadCacheMs := 1
  writeEncodings := none
  stateCache := none
  canonicalHeader := none
  signalIndex := none
  signalIdentity := none
  pending := []

/-- A state with one entry, as a writer left it that stamps no generation. -/
def oldState : Document where
  fields := ofMembers [(lit "format", number 1), (lit "revisionFormat", number 2),
    (lit "entries", .null), (lit "highWater", number 1)]
  entries := ofMembers [(lit "a/b/c", entryJson (lit "a/b/c") .null 1 1 .null)]

def oldMesh : Mesh Bool where
  file := some { identity := 0, stamp := lit "0", bytes := Json.bytes oldState.json }
  signal := none
  stores := fun _ => idleStore
  files := 1
  commits := []

/-- A digest that tells all texts apart. -/
def plainDigest : Digest :=
  List.map UInt8.toUInt16

def someStamp : Stamp where
  generation := lit "00000000-0000-0000-0000-000000000001"
  shaped := by decide
  journalHash := some (lit "ab")

/-- One store has parsed the old state; another then puts a key of another namespace. -/
def putBeside : Mesh Bool :=
  ((oldMesh.parse true 1).write plainDigest false (.put (lit "d/e/f") (some .null) .null none) 2
    someStamp (lit "1")).signalLast

def Looks.still (mesh : Mesh ι) : Looks ι where
  before := mesh
  header := mesh
  index := mesh
  after := mesh
  recheck := mesh

set_option maxRecDepth 20000 in
/-- The store that parsed the old state is answered from it for the namespace of its entry. -/
theorem incremental_encoding_is_plain_beside
    : ∃ mesh state file read, Steps plainDigest oldMesh mesh ∧ mesh.commits.length = 1
      ∧ signalledState plainDigest (mesh.stores true) (lit "a/b/") false 5 (.still mesh)
        = some state
      ∧ mesh.file = some file ∧ decodeState true file.bytes = .ok read
      ∧ ∀ locale, (select locale state (lit "a/b/")).Perm
        (select locale read.state (lit "a/b/")) := by
  have start : Untouched oldMesh := {
    signal := rfl
    commits := rfl
    identity := fun _ present => by
      rw [← Option.some.inj present]
      exact Nat.zero_lt_one
    idle := fun _ => ⟨rfl, rfl, rfl, rfl, rfl, rfl⟩
  }
  have injective : Function.Injective plainDigest :=
    List.map_injective_iff.mpr fun left right same => by
      have bytes := congrArg UInt16.toNat same
      rw [UInt8.toNat_toUInt16, UInt8.toNat_toUInt16] at bytes
      exact UInt8.toNat_inj.mp bytes
  obtain ⟨mesh, steps, once, answered⟩ : ∃ mesh, Steps plainDigest oldMesh mesh
      ∧ mesh.commits.length = 1
      ∧ (signalledState plainDigest (mesh.stores true) (lit "a/b/") false 5
        (.still mesh)).isSome = true :=
    ⟨putBeside, Mesh.signalLast_steps (Mesh.write_steps (Mesh.parse_steps .refl)),
      by decide +kernel, by decide +kernel⟩
  obtain ⟨state, found⟩ := Option.isSome_iff_exists.mp answered
  obtain ⟨file, read, present, call, lists⟩ :=
    (incremental_encoding_is_plain start steps).2.2 true (lit "a/b/") false 5 (.still mesh) state
      ⟨.refl, .refl, .refl, .refl, .refl⟩ (fun _ _ _ same => injective same) found
  exact ⟨mesh, state, file, read, steps, once, found, present, call,
    fun locale => (lists locale).1⟩

end PiFabric.State
