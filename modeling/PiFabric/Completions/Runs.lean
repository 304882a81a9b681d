import PiFabric.Completions.Owners

/-! Claims of child completions are exact, in every run of careful owners of one spool. -/

namespace PiFabric.Completions

open Faulty
open Interleaving (Protocol Config Run Prog)

variable {ι : Type} {w w' : World ι} {self : ι} {call : Call} {id : String} {ids : List String}
  {listing : Listing}

/-- Two claims of one id are both the mailbox's. -/
def Exclusive (events : List Event) : Prop :=
  events.Pairwise fun later earlier => ∀ id, later.claims id → earlier.claims id →
    later = .consumed id true ∧ earlier = .consumed id true

structure Inv (w : World ι) : Prop where
  exact_ : Exact w.spool w.events
  exclusive : Exclusive w.events

structure Grows (w w' : World ι) : Prop where
  events : ∀ event ∈ w.events, event ∈ w'.events
  grown : Grown w'.events w.spool w'.spool

variable {events : List Event} {before : Spool}

theorem Grown.later {later : List Event} {after : Spool} (h : Grown events before after)
    (more : ∀ event ∈ events, event ∈ later)
    : Grown later before after where
  final := h.final
  envelope id there := by
    refine (h.envelope id there).imp_right (Or.imp_right ?_)
    rintro ⟨mailbox, member⟩
    exact ⟨mailbox, more _ member⟩

theorem Grows.refl (w : World ι) : Grows w w :=
  ⟨fun _ member => member, .refl ..⟩

theorem Grows.trans {third : World ι} (hf : Grows w w') (hs : Grows w' third) : Grows w third where
  events event member := hs.events event (hf.events event member)
  grown := (hf.grown.later hs.events).trans hs.grown

variable [DecidableEq ι]

/-- Careful owners; nothing is relied on besides what always holds. -/
def protocol (ι : Type) [DecidableEq ι] : Protocol (Thread ι) (World ι) Call Reply where
  perform := CarefullyPerforms
  inv := Inv
  grows := Grows
  rely _ _ _ := True
  grows_refl := .refl
  grows_trans := .trans
  rely_refl _ _ := trivial
  rely_trans _ _ := trivial

omit [DecidableEq ι] in
theorem upheld_start (self : ι) (inv : Inv w) : Upheld w.events w.spool [] (w.desk self) :=
  ⟨inv.exact_, .refl .., by simp⟩

variable {reply : Reply call}

/-- A call keeps what holds, if its body does and what it claims is claimed. -/
theorem guarantees_act {post : Answer call → Desk → Prop} {faults : List (Option Fault)}
    (inv : Inv w) (keeps : Keeps w.events w.spool [] false post (call.body listing) (w.desk self))
    (claims : ∀ answer desk, Upheld w.events w.spool [] desk → post answer desk →
      Inv (w.left self desk call.claims)) (done : w.act self call listing faults = (reply, w'))
    : (protocol ι).Guarantees (.owner self) w w' := by
  unfold World.act at done
  rcases ran : call.body listing faults (w.desk self) with ⟨thrown | answer, desk, rest⟩
  · have upheld := keeps.stopped (fun wild => nomatch wild) ran
    rw [ran] at done
    cases thrown <;> cases done <;> exact ⟨⟨upheld.exact_, inv.exclusive⟩,
      ⟨fun _ member => member, upheld.grown⟩, fun _ _ => trivial⟩
  · obtain ⟨upheld, stated⟩ := keeps.returned (fun wild => nomatch wild) ran
    rw [ran] at done
    cases done
    have more : ∀ event ∈ w.events, event ∈ call.claims ++ w.events :=
      fun _ => List.mem_append_right _
    exact ⟨claims answer desk upheld stated, ⟨more, upheld.grown.later more⟩, fun _ _ => trivial⟩

theorem guarantees_quiet (post : Answer call → Desk → Prop) {faults : List (Option Fault)}
    (inv : Inv w) (plain : call.claims = [])
    (keeps : Keeps w.events w.spool [] false post (call.body listing) (w.desk self))
    (done : w.act self call listing faults = (reply, w'))
    : (protocol ι).Guarantees (.owner self) w w' := by
  refine guarantees_act inv keeps (fun answer desk upheld _ => ?_) done
  rw [plain]
  exact ⟨upheld.exact_, inv.exclusive⟩

variable {options : ConsumeOptions} {desk : Desk}

/-- A claim that returned, of a foreground or the mailbox. -/
theorem inv_consumed (inv : Inv w) (h : Upheld w.events w.spool [] desk)
    (careful : Careful (w.desk self) id options)
    (left : validId id = true → ClaimLeft (w.desk self) desk id options)
    : Inv (w.left self desk (Call.consume id options).claims) := by
  simp only [Call.claims]
  split
  · next valid =>
      have left := left valid
      have mailboxed : options.mailbox = true → Final desk.spool id := by
        intro mailbox
        exact received_claim (left.mailbox mailbox)
      refine ⟨⟨h.exact_.wf, h.exact_.listed, h.exact_.final, h.exact_.staged,
        fun member claims => ?_, fun held member => ?_⟩,
        List.pairwise_cons.mpr ⟨fun earlier member other new old => ?_, inv.exclusive⟩⟩
      · rcases List.mem_cons.mp member with rfl | member
        · obtain ⟨rfl, mailbox⟩ := claims
          exact mailboxed mailbox
        · exact h.exact_.claimed member claims
      · rcases List.mem_cons.mp member with same | member
        · cases same
        · exact h.exact_.mailbox held member
      · obtain ⟨rfl, mailbox⟩ := new
        refine ⟨by rw [mailbox], ?_⟩
        cases earlier with
        | batch ids => exact absurd old (h.exact_.mailbox (left.mailbox mailbox) member)
        | consumed other earlier =>
            obtain ⟨rfl, rfl⟩ := old
            rfl
  · exact ⟨h.exact_, inv.exclusive⟩

theorem inv_batched (inv : Inv w) (h : Upheld w.events w.spool [] desk)
    (batched : Batched (w.desk self) desk ids)
    : Inv (w.left self desk (Call.consumeLiveBatch ids).claims) := by
  refine ⟨⟨h.exact_.wf, h.exact_.listed, h.exact_.final, h.exact_.staged,
    fun member claims => ?_, fun {id _} held member => ?_⟩,
    List.pairwise_cons.mpr ⟨fun earlier member id new old => ?_, inv.exclusive⟩⟩
  · rcases List.mem_cons.mp member with rfl | member
    · exact batched.final _ claims
    · exact h.exact_.claimed member claims
  · rcases List.mem_cons.mp member with same | member
    · cases same
      intro listed
      obtain ⟨batch, live⟩ := batched.live id listed
      exact absurd (held.symm.trans live) (by simp [claimReceipt, liveReceipt])
    · exact h.exact_.mailbox held member
  · have final := inv.exact_.claimed member old
    exact absurd (final.1.symm.trans (batched.unread id new)) (by simp)

def Licensed (w : World ι) : Call → Prop
  | .removeEnvelope id | .discarded id => Consumed w.events id
  | _ => True

theorem keeps_cleanup {quiet : List String} {calm : Bool} (h : Upheld events before quiet desk)
    (consumed : Consumed events id)
    : Keeps events before quiet calm (fun _ _ => True) (Call.cleanup id) desk := by
  refine keeps_modify rfl h fun h => keeps_caught ?_ fun _ _ h => keeps_pure h trivial
  have removed := @Upheld.putEnvelope _ _ id _ _ h none (.inr (.inr consumed))
  have released := removed.frame ((desk.spool.putEnvelope id none).putResult id none)
    rfl rfl rfl
  refine keeps_then h removed (keeps_then removed released ?_)
  exact ends_modify ⟨⟨released.exact_, released.grown, released.unread⟩, trivial⟩

theorem keeps_intention {quiet : List String} {calm : Bool} (h : Upheld events before quiet desk)
    : Keeps events before quiet calm (fun _ _ => True) (Call.intention id) desk := by
  refine keeps_get ?_
  split
  · exact keeps_pure h trivial
  · have intended := h.frame
      (desk.spool.putAbandon id (some ⟨id, desk.store.publicationId⟩)) rfl rfl rfl
    exact keeps_then h intended (keeps_pure intended trivial)

theorem guarantees_performs {thread : Thread ι} (inv : Inv w) (licensed : Licensed w call)
    (performed : CarefullyPerforms thread w call reply w')
    : (protocol ι).Guarantees thread w w' := by
  obtain ⟨performed, careful⟩ := performed
  cases performed with
  | busy alive locked => exact .of_refl inv
  | wrote text =>
      exact ⟨⟨inv.exact_, inv.exclusive⟩, ⟨fun _ member => member, .refl ..⟩, fun _ _ => trivial⟩
  | @acted self _ _ _ _ listing faults alive listed done =>
      have start := upheld_start self inv
      cases call with
      | enqueue result spawner notify =>
          have checked : Keeps w.events w.spool [] false (fun _ _ => True)
              (checkIdentity result spawner) (w.desk self) := by
            unfold checkIdentity
            split
            · exact ends_throw start
            · exact keeps_pure start trivial
          exact guarantees_quiet _ inv rfl (checked.bind fun _ _ h _ => keeps_enqueue h) done
      | consume id options =>
          have keeps : Keeps w.events w.spool [] false _ _ (w.desk self) :=
            keeps_consume start careful (by simp)
          exact guarantees_act inv keeps (fun _ desk h left => inv_consumed inv h careful left) done
      | consumeLiveBatch ids =>
          have keeps : Keeps w.events w.spool [] false _ _ (w.desk self) :=
            keeps_consumeLiveBatch start careful
          exact guarantees_act inv keeps (fun _ desk h batched => inv_batched inv h batched) done
      | rollback id => exact guarantees_quiet _ inv rfl (keeps_rollbackAbandoned start) done
      | intend id => exact guarantees_quiet _ inv rfl (keeps_intention start) done
      | removeEnvelope id =>
          exact guarantees_quiet _ inv rfl (keeps_removeEnvelope start (.inr licensed)) done
      | discarded id => exact guarantees_quiet _ inv rfl (keeps_cleanup start licensed) done
      | scan options =>
          refine guarantees_quiet (fun _ _ => True) inv rfl (keeps_get ?_) done
          exact keeps_pure start trivial
      | pending options =>
          exact guarantees_quiet _ inv rfl (keeps_pending (listed rfl).distinct start) done
      | writeSession text =>
          exact guarantees_quiet (fun _ _ => True) inv rfl (keeps_pure start trivial) done

theorem consumed_performs {thread : Thread ι} {answer : Unit} (valid : validId id = true)
    (performed : Performs thread w (.consume id options) (.ok answer) w')
    : Consumed w'.events id := by
  cases performed with
  | @acted self _ _ _ _ listing faults alive listed done =>
      unfold World.act at done
      generalize Call.body listing (.consume id options) faults (w.desk self) = result at done
      obtain ⟨outcome, desk, rest⟩ := result
      cases outcome with
      | ok answer =>
          cases done
          exact ⟨options.mailbox, by simp [World.left, Call.claims, valid]⟩
      | error stop => cases stop <;> cases done

variable {thread : Thread ι} {α : Type} {post : World ι → α → Prop}

theorem sound_ask {next : Reply call → Owner α}
    (licensed : ∀ w', (protocol ι).Later thread w w' → Licensed w' call)
    (rest : ∀ reply w' w'', (protocol ι).Later thread w w' → Performs thread w' call reply w'' →
      Inv w'' → (protocol ι).Sound thread post (next reply) w'')
    : (protocol ι).Sound thread post (ask call >>= next) w := by
  intro w' later reply w'' performed
  have guaranteed := guarantees_performs later.inv (licensed w' later) performed
  exact ⟨guaranteed, rest reply w' w'' later performed.1 guaranteed.inv⟩

/-- A call that needs no license, whatever it replies. -/
theorem sound_ask_any {next : Reply call → Owner α} (free : ∀ w : World ι, Licensed w call)
    (rest : ∀ reply w', Inv w' → (protocol ι).Sound thread post (next reply) w')
    : (protocol ι).Sound thread post (ask call >>= next) w :=
  sound_ask (fun w' _ => free w') fun reply _ w'' _ _ inv => rest reply w'' inv

theorem sound_last (licensed : ∀ w', (protocol ι).Later thread w w' → Licensed w' call)
    : (protocol ι).Sound thread (fun _ _ => True) (do let _ ← ask call : Owner Unit) w :=
  sound_ask licensed fun _ _ _ _ _ _ _ _ => trivial

/-- A claim that returned, and what is removed after it. -/
theorem sound_claimThen {cleanup : Call} (valid : validId id = true)
    (licensed : ∀ w : World ι, Consumed w.events id → Licensed w cleanup)
    : (protocol ι).Sound thread (fun _ _ => True) (claimThen id options cleanup) w := by
  refine sound_ask (fun _ _ => trivial) fun reply w' w'' _ performed _ => ?_
  cases reply with
  | error error => exact fun _ _ => trivial
  | ok answer =>
      have consumed := consumed_performs valid performed
      refine sound_last fun w₁ later => licensed w₁ ?_
      exact consumed.imp fun mailbox member => later.grows.events _ member

theorem sound_call (api : Api)
    : (protocol ι).Sound thread (fun _ _ => True) api.run w := by
  cases api with
  | enqueue | consume | consumeLiveBatch => exact sound_last fun _ _ => trivial
  | acknowledge id handoff =>
      simp only [Api.run]
      split
      · exact fun _ _ => trivial
      · next valid => exact sound_claimThen (by simpa using valid) fun _ consumed => consumed
  | discard id =>
      simp only [Api.run]
      split
      · exact fun _ _ => trivial
      · next valid => exact sound_claimThen (by simpa using valid) fun _ consumed => consumed
  | abandonForeground id =>
      simp only [Api.run]
      split
      · exact fun _ _ => trivial
      · refine sound_ask_any (fun _ => trivial) fun reply w' _ => ?_
        split
        · exact sound_last fun _ _ => trivial
        · exact fun _ _ => trivial
        · exact fun _ _ => trivial
  | pending options =>
      refine sound_ask_any (fun _ => trivial) fun reply w' _ => ?_
      split
      · refine sound_ask_any (fun _ => trivial) fun reply w' _ => ?_
        split
        · exact sound_last fun _ _ => trivial
        · exact fun _ _ => trivial
        · exact fun _ _ => trivial
      · exact fun _ _ => trivial
      · exact fun _ _ => trivial

theorem sound_history (calls : List Api) (inv : Inv w)
    : (protocol ι).Sound thread (fun _ _ => True) (history calls) w := by
  induction calls generalizing w with
  | nil => exact fun _ _ => trivial
  | cons call rest ih => exact .bind inv (sound_call call) fun w' _ inv _ _ => ih inv

variable {parties : Parties ι} {config config' : SpoolConfig ι}

end PiFabric.Completions
