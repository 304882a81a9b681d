import PiFabric.Completions.Sections

/-! The pending completions: looking for them keeps the claims of the spool, and finds every
envelope that is waiting.
-/

namespace PiFabric.Completions

open Faulty

variable {before : Spool} {events : List Event} {id target : String} {quiet : List String}
  {desk : Desk} {calm : Bool} {options : PendingOptions} {envelope : ActorChildCompletion}

/-- Fewer ids that stay unread, and one that did. -/
theorem Keeps.quieter {α : Type} {post : α → Desk → Prop} {section_ : Section α}
    (h : Keeps events before (id :: quiet) calm post section_ desk)
    : Keeps events before quiet calm
      (fun value desk' => post value desk' ∧ desk'.spool.received id = false) section_ desk := by
  have fewer : ∀ {desk : Desk}, Upheld events before (id :: quiet) desk →
      Upheld events before quiet desk :=
    fun h => ⟨h.exact_, h.grown, fun other member => h.unread other (List.mem_cons_of_mem _ member)⟩
  exact Ends.mono h (fun value desk' ended =>
    ⟨fewer ended.1, ended.2, ended.1.unread id List.mem_cons_self⟩) fun _ desk' => fewer

theorem keeps_rollbackAll (ids : List String) (h : Upheld events before quiet desk)
    : Keeps events before quiet calm (fun _ _ => True) (rollbackAll ids) desk := by
  refine (ends_each (fun _ desk' => Upheld events before quiet desk')
    (fun id rest desk' h => ?_) h).mono (fun _ _ h => ⟨h, trivial⟩) fun _ _ kept => kept
  exact Ends.mono (keeps_caught (keeps_rollbackAbandoned h) fun _ _ h => keeps_pure h trivial)
    (fun _ _ ended => ended.1) fun _ _ kept => kept

theorem keeps_judgeEnvelope (h : Upheld events before quiet desk)
    : Keeps events before quiet calm
      (fun value desk' => ∀ found, value = some found →
        found.result.id = id ∧ desk'.spool.received id = false)
      (judgeEnvelope options id) desk := by
  refine .bind (keeps_rollbackAbandoned h) fun _ desk h _ => keeps_get ?_
  split
  · next received =>
      split
      · exact keeps_pure h (by simp)
      · next plain =>
          have final : Final desk.spool id := ⟨received, by simpa using plain⟩
          exact .bind (keeps_removeEnvelope h (.inl final)) fun _ _ h _ => keeps_pure h (by simp)
  · next unread =>
      split
      · exact keeps_pure h (by simp)
      · split
        · next value _ fits =>
            refine keeps_pure h fun found same => ?_
            cases same
            exact ⟨fits.2.1, by simpa using unread⟩
        · exact keeps_pure h (by simp)

theorem keeps_collect (listed : List String) (room : Nat) (h : Upheld events before quiet desk)
    : Keeps events before quiet calm
      (fun found desk' => (found.map (·.result.id)).Sublist listed
        ∧ ∀ value ∈ found, desk'.spool.received value.result.id = false)
      (collect options room listed) desk := by
  induction listed generalizing room desk quiet with
  | nil => exact keeps_pure h ⟨List.Sublist.refl _, by simp⟩
  | cons id rest ih =>
      refine .bind (keeps_caught (keeps_judgeEnvelope h) fun _ _ h => keeps_pure h (by simp))
        fun value desk h judged => ?_
      cases value with
      | none => exact (ih room h).mono fun _ _ ended => ⟨ended.1.cons _, ended.2⟩
      | some value =>
          obtain ⟨same, unread⟩ := judged value rfl
          match room with
          | 0 | 1 => exact keeps_pure h ⟨by simp [same], by simpa [same] using unread⟩
          | room + 2 =>
              have quieter : Upheld events before (id :: quiet) desk := by
                refine ⟨h.exact_, h.grown, fun other member => ?_⟩
                rcases List.mem_cons.mp member with rfl | member
                · exact unread
                · exact h.unread other member
              refine .bind (ih (room + 1) quieter).quieter fun found desk' h ended => ?_
              obtain ⟨⟨sublist, others⟩, still⟩ := ended
              refine keeps_pure h ⟨by simpa [same] using sublist, fun found member => ?_⟩
              rcases List.mem_cons.mp member with rfl | member
              · exact same ▸ still
              · exact others found member

/-- Checking only remembers. -/
theorem foldl_setChecked (known : ActorChildCompletion → Option Bool)
    (values : List ActorChildCompletion) (desk : Desk)
    : (values.foldl (fun desk value => desk.setChecked value.result.id (known value)) desk).spool
        = desk.spool
      ∧ (values.foldl (fun desk value => desk.setChecked value.result.id (known value))
          desk).session = desk.session := by
  induction values generalizing desk with
  | nil => exact ⟨rfl, rfl⟩
  | cons value rest ih => exact ih _

theorem keeps_check (eligible : List ActorChildCompletion) (h : Upheld events before quiet desk)
    : Keeps events before quiet calm (fun _ desk' => desk'.spool = desk.spool) (check eligible)
      desk := by
  refine keeps_get (ends_modify ?_)
  obtain ⟨same, -⟩ := foldl_setChecked (fun value =>
    some ((committedIds desk.session).contains (JsString.lit value.result.id)))
    (eligible.filter fun value => (desk.store.checked value.result.id).isNone) desk
  exact ⟨⟨same ▸ h.exact_, same ▸ h.grown, same ▸ h.unread⟩, same⟩

theorem keeps_acknowledge (h : Upheld events before quiet desk)
    (unread : desk.spool.received id = false) (apart : id ∉ quiet)
    : Keeps events before quiet calm (fun _ _ => True) (acknowledge id false) desk := by
  unfold acknowledge
  split
  · exact keeps_pure h trivial
  · next valid =>
      have valid : validId id = true := by simpa using valid
      refine .bind (keeps_consume h ⟨by simp, by simp⟩ apart) fun _ desk' h left => ?_
      have final := (left valid).final rfl unread
      exact (keeps_removeEnvelope h (.inl final)).mono fun _ _ _ => trivial

theorem keeps_deliverable (eligible : List ActorChildCompletion)
    (distinct : (eligible.map (·.result.id)).Nodup)
    (h : Upheld events before (eligible.map (·.result.id)) desk)
    : Keeps events before [] calm (fun _ _ => True) (deliverable eligible) desk := by
  induction eligible generalizing desk with
  | nil => exact keeps_pure h trivial
  | cons value rest ih =>
      obtain ⟨apart, distinct⟩ := List.nodup_cons.mp distinct
      have unread := h.unread value.result.id List.mem_cons_self
      have remaining : Upheld events before (rest.map (·.result.id)) desk :=
        ⟨h.exact_, h.grown, fun id member => h.unread id (List.mem_cons_of_mem _ member)⟩
      have none_ : ∀ {desk : Desk}, Upheld events before (rest.map (·.result.id)) desk →
          Upheld events before [] desk := fun h => ⟨h.exact_, h.grown, by simp⟩
      refine keeps_get ?_
      split
      · refine Ends.bind (Ends.mono (keeps_caught (keeps_acknowledge remaining unread apart)
          fun _ _ h => keeps_pure h trivial) (fun _ desk' ended => ih distinct ended.1)
          fun _ _ => none_)
      · exact .bind (ih distinct remaining) fun _ _ h _ => keeps_pure h trivial

theorem keeps_pending {listing : Listing} (listed : listing.envelopes.Nodup)
    (h : Upheld events before [] desk)
    : Keeps events before [] calm (fun _ _ => True) (pending options listing) desk := by
  refine .bind (keeps_rollbackAll listing.abandons h) fun _ desk h _ => keeps_modify rfl h fun h => ?_
  refine .bind (keeps_collect listing.envelopes 100 h) fun eligible desk h found => ?_
  obtain ⟨sublist, unread⟩ := found
  have distinct := listed.sublist sublist
  have quiet : Upheld events before (eligible.map (·.result.id)) desk := by
    refine ⟨h.exact_, h.grown, fun id member => ?_⟩
    obtain ⟨value, found, rfl⟩ := List.mem_map.mp member
    exact unread value found
  refine Ends.bind (Ends.mono (keeps_check eligible quiet) (fun _ desk' ended => ?_)
    fun _ _ h => ⟨h.exact_, h.grown, by simp⟩)
  exact keeps_deliverable eligible distinct ended.1

/-- An unread envelope, which the session does not hold. -/
structure Waits (target : String) (envelope : ActorChildCompletion) (desk : Desk) : Prop where
  unread : desk.spool.received target = false
  there : desk.spool.envelopes target = some envelope
  unchecked : desk.store.checked target ≠ some true
  uncommitted : JsString.lit target ∉ committedIds desk.session

/-- A calm run that leaves what waits, and returns as `post` says. -/
def Spares (target : String) (envelope : ActorChildCompletion) {α : Type}
    (post : α → Prop) (section_ : Section α) (desk : Desk) : Prop :=
  Ends true (fun value desk' => Waits target envelope desk' ∧ post value) (fun _ _ => False)
    section_ desk

section
variable {α β : Type} {post : α → Prop} {first : Section α}

theorem Spares.bind {after : β → Prop} {rest : α → Section β}
    (judged : Spares target envelope post first desk)
    (second : ∀ value desk', Waits target envelope desk' → post value →
      Spares target envelope after (rest value) desk')
    : Spares target envelope after (first >>= rest) desk :=
  Ends.bind (Ends.mono judged (fun value desk' ended => second value desk' ended.1 ended.2)
    fun _ _ => False.elim)

theorem Spares.mono {post' : α → Prop} (h : Spares target envelope post first desk)
    (weakens : ∀ value, post value → post' value)
    : Spares target envelope post' first desk :=
  Ends.mono h (fun value _ ended => ⟨ended.1, weakens value ended.2⟩) fun _ _ => id

end

/-- A write that touches neither the receipt nor the envelope of what waits. -/
theorem Waits.frame (h : Waits target envelope desk) (spool : Spool)
    (receipt : desk.spool.receipts target = spool.receipts target)
    (markers : desk.spool.markers = spool.markers)
    (envelopes : desk.spool.envelopes target = spool.envelopes target)
    : Waits target envelope (desk.withSpool spool) where
  unread := (received_congr receipt markers).symm.trans h.unread
  there := envelopes.symm.trans h.there
  unchecked := h.unchecked
  uncommitted := h.uncommitted

end PiFabric.Completions
