import PiFabric.Timeline.Protocol

/-! What each call of a state store does, as a rule for the programs that make it.
-/

namespace PiFabric.Timeline

open JsString
open Interleaving (Prog Protocol)

variable {ι : Type} {w w' : World ι} {thread : ι} {maxReadEvents : Nat} {key : Key}

/-- A compare-and-swap that was accepted found its version, or no row for 0. -/
def Accepts (w : World ι) (key : Key) (ifVersion : Nat) : Prop :=
  w.store.version key = ifVersion ∨ w.store.rows key = none ∧ ifVersion = 0

variable {ifVersion : Nat}

theorem Accepts.live {value : Value} (h : Accepts w key ifVersion)
    (live : w.store.rows key = some value)
    : w.store.version key = ifVersion := by
  rcases h with same | ⟨absent, -⟩
  · exact same
  · exact absurd (live.symm.trans absent) (by simp)

theorem foundVersion_le (w : World ι) (key : Key) (evicted : Bool)
    : w.foundVersion key evicted ≤ w.store.version key := by
  unfold World.foundVersion
  split <;> omega

theorem accepts_of_found {evicted : Bool} (same : ifVersion = w.foundVersion key evicted)
    : Accepts w key ifVersion := by
  unfold World.foundVersion at same
  split at same
  · next absent =>
      simp only [Bool.and_eq_true, Option.isNone_iff_eq_none] at absent
      exact .inr ⟨absent.2, same⟩
  · exact .inl same.symm

theorem performs_get {reply : Reply (.get key)}
    (h : Performs maxReadEvents thread w (.get key) reply w')
    : w' = w ∧ (reply = .ok (w.store.get key)
      ∨ ∃ message, reply = .error (.storeFailed message)) := by
  obtain ⟨choice, performed⟩ := h
  simp only [World.perform] at performed
  split at performed <;> cases performed
  · exact ⟨rfl, .inr ⟨_, rfl⟩⟩
  · exact ⟨rfl, .inl rfl⟩

theorem performs_reread {reply : Reply .reread}
    (h : Performs maxReadEvents thread w .reread reply w')
    : (w' = w ∧ ∃ message, reply = .error (.storeFailed message))
      ∨ reply = .ok (w.store.get .current)
        ∧ (w' = w ∧ w.HeadCommitted ∨ w' = { w with hasty := thread :: w.hasty }) := by
  obtain ⟨choice, performed⟩ := h
  simp only [World.perform] at performed
  split at performed
  · cases performed
    exact .inl ⟨rfl, _, rfl⟩
  · split at performed <;> cases performed
    · next calm => exact .inr ⟨rfl, .inl ⟨rfl, calm⟩⟩
    · exact .inr ⟨rfl, .inr rfl⟩

theorem performs_read {reply : Reply .read} (h : Performs maxReadEvents thread w .read reply w')
    : w' = w ∧ (reply = .ok (w.stateEvents maxReadEvents)
      ∨ ∃ message, reply = .error (.storeFailed message)) := by
  obtain ⟨choice, performed⟩ := h
  simp only [World.perform] at performed
  split at performed <;> cases performed
  · exact ⟨rfl, .inr ⟨_, rfl⟩⟩
  · exact ⟨rfl, .inl rfl⟩

/-- A write that is refused says which version it found. -/
inductive Refused (w : World ι) (key : Key) (ifVersion : Nat) : Failure → Prop
  | failed (message : JsString) : Refused w key ifVersion (.storeFailed message)
  | conflict {found : Nat} (bound : found ≤ w.store.version key)
      : Refused w key ifVersion (.conflict key ifVersion found)

theorem performs_put {value : Value} {reply : Reply (.put key value ifVersion)}
    (h : Performs maxReadEvents thread w (.put key value ifVersion) reply w')
    : (w' = w.write key (some value) ∧ reply = .ok (value, w.store.issue key)
        ∧ Accepts w key ifVersion)
      ∨ (w' = w ∧ ∃ failure, reply = .error failure ∧ Refused w key ifVersion failure) := by
  obtain ⟨choice, performed⟩ := h
  simp only [World.perform] at performed
  split at performed
  · cases performed
    exact .inr ⟨rfl, _, rfl, .failed _⟩
  · split at performed <;> cases performed
    · next same => exact .inl ⟨rfl, rfl, accepts_of_found same⟩
    · exact .inr ⟨rfl, _, rfl, .conflict (foundVersion_le ..)⟩

def World.advanced (w : World ι) (thread : ι) (input : AdvanceHeadInput) : World ι :=
  { w.write .current (some (.head input.payload)) with
    advances := w.advances
      ++ [{ author := thread, input, replaced := w.head.map (·.toHeadValue) }] }

theorem performs_advance {input : AdvanceHeadInput} {reply : Reply (.advance input ifVersion)}
    (h : Performs maxReadEvents thread w (.advance input ifVersion) reply w')
    : (w' = w.advanced thread input ∧ reply = .ok (.head input.payload, w.store.issue .current)
        ∧ Accepts w .current ifVersion)
      ∨ (w' = w ∧ ∃ failure, reply = .error failure ∧ Refused w .current ifVersion failure) := by
  obtain ⟨choice, performed⟩ := h
  simp only [World.perform] at performed
  split at performed
  · cases performed
    exact .inr ⟨rfl, _, rfl, .failed _⟩
  · split at performed <;> cases performed
    · next same => exact .inl ⟨rfl, rfl, accepts_of_found same⟩
    · exact .inr ⟨rfl, _, rfl, .conflict (foundVersion_le ..)⟩

theorem performs_delete {reply : Reply (.delete key ifVersion)}
    (h : Performs maxReadEvents thread w (.delete key ifVersion) reply w')
    : (w' = w.write key none ∧ reply = .ok (some (w.store.issue key)))
      ∨ (w' = w ∧ ∀ version, reply ≠ .ok (some version)) := by
  obtain ⟨choice, performed⟩ := h
  simp only [World.perform] at performed
  split at performed
  · cases performed
    exact .inr ⟨rfl, by simp⟩
  · split at performed
    · split at performed <;> cases performed
      · exact .inl ⟨rfl, rfl⟩
      · exact .inr ⟨rfl, by simp⟩
    · cases performed
      exact .inr ⟨rfl, by simp⟩

theorem performs_publish {payload : Payload} {reply : Reply (.publish payload)}
    (h : Performs maxReadEvents thread w (.publish payload) reply w')
    : (∃ choice, w.Appends choice ∧ w' = w.append thread choice payload none
        ∧ reply = .ok ⟨choice.id, choice.sequence, payload⟩)
      ∨ (w' = w ∧ ∃ message, reply = .error (.storeFailed message)) := by
  obtain ⟨choice, performed⟩ := h
  simp only [World.perform] at performed
  split at performed
  · cases performed
    exact .inr ⟨rfl, _, rfl⟩
  · split at performed
    · next appends =>
        cases performed
        exact .inl ⟨choice, appends, rfl, rfl⟩
    · exact absurd performed (by simp)

theorem performs_certify {data : Verdict} {evidence : Evidence}
    {reply : Reply (.certify data evidence)}
    (h : Performs maxReadEvents thread w (.certify data evidence) reply w')
    : (∃ choice, w.Appends choice
        ∧ w' = w.append thread choice (.certified data) (some evidence)
        ∧ reply = .ok ⟨choice.id, choice.sequence, .certified data⟩)
      ∨ (w' = w ∧ ∃ message, reply = .error (.storeFailed message)) := by
  obtain ⟨choice, performed⟩ := h
  simp only [World.perform] at performed
  split at performed
  · cases performed
    exact .inr ⟨rfl, _, rfl⟩
  · split at performed
    · next appends =>
        cases performed
        exact .inl ⟨choice, appends, rfl, rfl⟩
    · exact absurd performed (by simp)

def Call.Outside : Call → Prop
  | .now | .measure _ | .observe | .runCommand _ => True
  | _ => False

theorem performs_outside {call : Call} {reply : Reply call} (outside : call.Outside)
    (h : Performs maxReadEvents thread w call reply w')
    : w' = w := by
  obtain ⟨choice, performed⟩ := h
  cases call <;> simp only [Call.Outside] at outside
  case runCommand command =>
    simp only [World.perform] at performed
    split at performed <;> cases performed <;> rfl
  all_goals
    cases performed
    rfl

/-- Whatever the others do, every call of the program is guaranteed, and its outcome is as stated
from then on.
-/
abbrev Sound {α : Type} (maxReadEvents : Nat) (thread : ι) (post : World ι → α → Prop)
    (program : Prog Call Reply α) (w : World ι) : Prop :=
  (protocol ι maxReadEvents).Sound thread post program w

section
variable {α : Type} {post : World ι → α → Prop} {call : Call}
  {rest : Reply call → Prog Call Reply α}

theorem sound_send
    (h : ∀ w', Later maxReadEvents thread w w' → ∀ reply w'',
      Performs maxReadEvents thread w' call reply w'' →
        Guaranteed maxReadEvents thread w' w'' ∧ Sound maxReadEvents thread post (rest reply) w'')
    : Sound maxReadEvents thread post (Prog.send call >>= rest) w :=
  h

/-- One call that leaves the world as it is. -/
theorem sound_quiet
    (quiet : ∀ {w' reply w''}, Performs maxReadEvents thread w' call reply w'' → w'' = w')
    (h : ∀ w', Later maxReadEvents thread w w' → ∀ reply,
      Performs maxReadEvents thread w' call reply w' →
        Sound maxReadEvents thread post (rest reply) w')
    : Sound maxReadEvents thread post (Prog.send call >>= rest) w := by
  refine sound_send fun w' later reply w'' performed => ?_
  obtain rfl := quiet performed
  exact ⟨.refl later.inv, h _ later _ performed⟩

end

section
variable {α β : Type} {post : World ι → Except Failure α → Prop}

/-- What a program that may throw returns or throws. -/
abbrev Throws (maxReadEvents : Nat) (thread : ι) (post : World ι → Except Failure α → Prop)
    (w : World ι) : Prop :=
  ∀ w' failure, Later maxReadEvents thread w w' → post w' (.error failure)

theorem sound_get {rest : Option Entry → Program α} (failed : Throws maxReadEvents thread post w)
    (h : ∀ w', Later maxReadEvents thread w w' →
      Sound maxReadEvents thread post (rest (w'.store.get key)).run w')
    : Sound maxReadEvents thread post (Program.get key >>= rest).run w := by
  refine sound_quiet (fun performed => (performs_get performed).1) ?_
  intro w' later reply performed
  rcases (performs_get performed).2 with rfl | ⟨message, rfl⟩
  · exact h _ later
  · exact fun w'' next => failed _ _ (later.trans next)

theorem sound_read {rest : List Event → Program α} (failed : Throws maxReadEvents thread post w)
    (h : ∀ w', Later maxReadEvents thread w w' →
      Sound maxReadEvents thread post (rest (w'.stateEvents maxReadEvents)).run w')
    : Sound maxReadEvents thread post (Program.read >>= rest).run w := by
  refine sound_quiet (fun performed => (performs_read performed).1) ?_
  intro w' later reply performed
  rcases (performs_read performed).2 with rfl | ⟨message, rfl⟩
  · exact h _ later
  · exact fun w'' next => failed _ _ (later.trans next)

/-- A call that looks outside may be followed by anything that is sound for each reply. -/
theorem sound_outside {γ : Type} {postAny : World ι → γ → Prop} {call : Call}
    {rest : Reply call → Prog Call Reply γ} (outside : call.Outside)
    (h : ∀ w' reply, Later maxReadEvents thread w w' →
      Sound maxReadEvents thread postAny (rest reply) w')
    : Sound maxReadEvents thread postAny (.call call rest) w :=
  sound_quiet (performs_outside outside) fun w' later reply _ => h w' reply later

theorem sound_now {rest : Nat → Program α}
    (h : ∀ w' time, Later maxReadEvents thread w w' →
      Sound maxReadEvents thread post (rest time).run w')
    : Sound maxReadEvents thread post (Program.now >>= rest).run w :=
  sound_outside (show Call.now.Outside from trivial) h

theorem sound_measure {file : JsString} {rest : Option (JsString × Nat) → Program α}
    (h : ∀ w' measured, Later maxReadEvents thread w w' →
      Sound maxReadEvents thread post (rest measured).run w')
    : Sound maxReadEvents thread post (Program.measure file >>= rest).run w :=
  sound_outside (show (Call.measure file).Outside from trivial) h

theorem sound_observe {rest : Option JsString × Option Bool → Program α}
    (h : ∀ w' observed, Later maxReadEvents thread w w' →
      Sound maxReadEvents thread post (rest observed).run w')
    : Sound maxReadEvents thread post (Program.observe >>= rest).run w :=
  sound_outside (show Call.observe.Outside from trivial) h

theorem sound_runCommand {command : JsString} {rest : CommandResult → Program α}
    (failed : Throws maxReadEvents thread post w)
    (h : ∀ w' result, Later maxReadEvents thread w w' →
      Sound maxReadEvents thread post (rest result).run w')
    : Sound maxReadEvents thread post (Program.runCommand command >>= rest).run w := by
  refine sound_outside (show (Call.runCommand command).Outside from trivial) ?_
  intro w' reply later
  cases reply with
  | ok result => exact h _ result later
  | error cause => exact fun w'' next => failed _ _ (later.trans next)

/-- A write whose outcome is looked at. -/
theorem sound_attempt_put {value : Value} {ifVersion : Nat}
    {rest : Except Failure Entry → Program α}
    (h : ∀ w', Later maxReadEvents thread w w' → ∀ reply w'',
      Performs maxReadEvents thread w' (.put key value ifVersion) reply w'' →
        Guaranteed maxReadEvents thread w' w''
          ∧ Sound maxReadEvents thread post (rest reply).run w'')
    : Sound maxReadEvents thread post
      (Program.attempt (Program.put key value ifVersion) >>= rest).run w :=
  h

theorem sound_attempt_advance {input : AdvanceHeadInput} {ifVersion : Nat}
    {rest : Except Failure Entry → Program α}
    (h : ∀ w', Later maxReadEvents thread w w' → ∀ reply w'',
      Performs maxReadEvents thread w' (.advance input ifVersion) reply w'' →
        Guaranteed maxReadEvents thread w' w''
          ∧ Sound maxReadEvents thread post (rest reply).run w'')
    : Sound maxReadEvents thread post
      (Program.attempt (Program.advance input ifVersion) >>= rest).run w :=
  h

/-- A step of the thread that publishes nothing. -/
theorem Guaranteed.silent (h : Guaranteed maxReadEvents thread w w') (same : w'.log = w.log)
    : Later maxReadEvents thread w w' :=
  ⟨h.inv, h.grows, fun _ member _ => same ▸ member⟩

theorem sound_reread {rest : Option Entry → Program α} (failed : Throws maxReadEvents thread post w)
    (h : ∀ w' w'', Later maxReadEvents thread w w' → Later maxReadEvents thread w' w'' →
      w''.store = w'.store → thread ∈ w''.hasty ∨ w'.HeadCommitted →
        Sound maxReadEvents thread post (rest (w'.store.get .current)).run w'')
    : Sound maxReadEvents thread post (Program.reread >>= rest).run w := by
  refine sound_send fun w' later reply w'' performed => ?_
  rcases performs_reread performed with ⟨rfl, message, rfl⟩ | ⟨rfl, ⟨rfl, calm⟩ | rfl⟩
  · exact ⟨.refl later.inv, fun last next => failed _ _ (later.trans next)⟩
  · exact ⟨.refl later.inv, h _ _ later (.refl later.inv) rfl (.inr calm)⟩
  · have guaranteed := @guaranteed_hasty _ _ thread maxReadEvents later.inv
    exact ⟨guaranteed, h _ _ later (guaranteed.silent rfl) rfl (.inl List.mem_cons_self)⟩

/-- A sub-program that publishes nothing, and what follows it. -/
theorem sound_then {between : World ι → Except Failure β → Prop} {first : Program β}
    {rest : β → Program α} (known : Inv w) (failed : Throws maxReadEvents thread post w)
    (sound : Sound maxReadEvents thread
      (fun w' outcome => Later maxReadEvents thread w w' ∧ between w' outcome) first.run w)
    (h : ∀ w' value, Later maxReadEvents thread w w' → between w' (.ok value) →
      Sound maxReadEvents thread post (rest value).run w')
    : Sound maxReadEvents thread post (first >>= rest).run w :=
  Protocol.Sound.try_ known sound (fun w' value _ _ stated => h w' value stated.1 stated.2)
    fun w' failure _ _ stated => failed w' failure stated.1

theorem sound_check {failure : Option Failure} {rest : Unit → Program α}
    (failed : Throws maxReadEvents thread post w)
    (h : failure = none → Sound maxReadEvents thread post (rest ()).run w)
    : Sound maxReadEvents thread post (Program.check failure >>= rest).run w := by
  cases failure with
  | none => exact h rfl
  | some cause => exact fun w' later => failed w' cause later

theorem sound_throw {failure : Failure} (failed : Throws maxReadEvents thread post w)
    : Sound maxReadEvents thread post (throw failure : Program α).run w :=
  fun w' later => failed w' failure later

theorem sound_pure {value : α}
    (h : ∀ w', Later maxReadEvents thread w w' → post w' (.ok value))
    : Sound maxReadEvents thread post (pure value : Program α).run w :=
  h

end

end PiFabric.Timeline
