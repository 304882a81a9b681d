import PiFabric.Foundation.HashChain
import PiFabric.Records.Chain

/-! What the verifier establishes. It reads every row once in order, and it reports no break
exactly where the rows form one chain of this org and origin.
-/

namespace PiFabric.Records

open JsString HashChain

theorem cell_injective {left right : Option JsString} (h : cell left = cell right)
    : left = right := by
  cases left with
  | none =>
      cases right with
      | none => rfl
      | some text => exact absurd h (by simp [cell])
  | some text =>
      cases right with
      | none => exact absurd h (by simp [cell])
      | some other => simpa [cell] using h

theorem digits_injective {left right : Nat} (h : Json.digits left = Json.digits right)
    : left = right := by
  have same : Json.stringify (.number (.int left)) = Json.stringify (.number (.int right)) := h
  simpa using Json.stringify_injective same

theorem canonicalJson_eq (row : Row)
    : canonicalJson row = .object [(lit "author", cell row.author),
        (lit "author_name", cell row.authorName), (lit "created_at", cell row.createdAt),
        (lit "data", cell row.data), (lit "id", cell row.id), (lit "key", cell row.key),
        (lit "kind", cell row.kind), (lit "org", cell row.org), (lit "origin", cell row.origin),
        (lit "payload_hash", cell row.payloadHash), (lit "prev_hash", cell row.prevHash),
        (lit "ref", cell row.ref), (lit "seq", cell (Json.digits row.seq)),
        (lit "supersedes", cell row.supersedes), (lit "text", cell row.text)] := by
  rfl

theorem canonicalBytes_injective {left right : Row}
    (h : canonicalBytes left = canonicalBytes right)
    : left = right := by
  have same := Json.bytes_injective h
  rw [canonicalJson_eq, canonicalJson_eq] at same
  cases left
  cases right
  simp only [Json.object.injEq, List.cons.injEq, Prod.mk.injEq, true_and, and_true] at same
  grind [cell_injective, digits_injective]

def ordered (table : Table) : List Row :=
  Paging.after table.rows Row.place (toLex (0, nilUuid.map UInt16.toNat))

theorem places_nodup (table : Table) : (table.rows.map Row.place).Nodup := by
  have ids := table.ids
  rw [List.Nodup, List.pairwise_map] at ids ⊢
  refine ids.imp fun apart same => apart ?_
  have texts := congrArg (fun place => (ofLex place).2) same
  exact List.map_injective_iff.mpr (fun _ _ => UInt16.toNat_inj.mp) texts

variable {row : Row}

theorem mem_ordered {table : Table} : row ∈ ordered table ↔ row ∈ table.rows := by
  rw [ordered, Paging.mem_after]
  refine and_iff_left_of_imp fun inside => ?_
  exact Prod.Lex.toLex_lt_toLex.mpr (.inl (table.positive row inside))

theorem ordered_perm (table : Table) : (ordered table).Perm table.rows := by
  have sorted := Paging.pairwise_after (places_nodup table) (toLex (0, nilUuid.map UInt16.toNat))
  refine (List.perm_ext_iff_of_nodup ?_ ?_).mpr fun _ => mem_ordered
  · exact sorted.imp fun before same => absurd (same ▸ before) (lt_irrefl _)
  · exact (places_nodup table).of_map _

theorem readRows_eq (org origin : JsString) (anchors : List Link) (table : Table)
    : readRows org origin anchors table = (ordered table).foldl (checkRow org origin)
        { first := none, prev := none, rows := 0, wanted := wantedOf anchors } :=
  Paging.readPages_eq_foldl (places_nodup table) (by decide) _ _ _

def Own (org origin : JsString) (rows : List Row) : Prop :=
  ∀ row ∈ rows, row.org = org ∧ row.origin = origin

/-- The rows, in this order, form the chain from its first record on. -/
def Chained (rows : List Row) : Prop :=
  Linked Row.seq Row.prevHash rowHash 0 none rows

variable {org origin : JsString}

variable {state : Progress}

theorem checkRow_first (h : (checkRow org origin state row).first = none)
    : state.first = none := by
  unfold checkRow at h
  split at h <;> exact (Option.or_eq_none_iff.mp h).1

variable {rows : List Row}

/-- A break that was found stays, by induction over the rows that follow. -/
theorem foldl_checkRow_first (h : (rows.foldl (checkRow org origin) state).first = none)
    : state.first = none := by
  induction rows generalizing state with
  | nil => exact h
  | cons row rest ih => exact checkRow_first (ih h)

variable {seq : Nat}

/-- One row continues without a break exactly where it is the next of this chain. -/
theorem checkRow_first_iff (clean : state.first = none)
    (reached : (state.prev.map Link.seq).getD 0 = seq) (exact_ : seq + 1 < Double.exactLimit)
    : (checkRow org origin state row).first = none
      ↔ (row.org = org ∧ row.origin = origin) ∧ row.seq = seq + 1
        ∧ row.prevHash = state.prev.map Link.hash := by
  have number : Double.ofNat row.seq = Double.ofNat (seq + 1) ↔ row.seq = seq + 1 := by
    rw [Double.ofNat_of_le (Nat.le_of_lt exact_)]
    constructor
    · intro same
      rw [← same, Double.eq_of_ofNat_lt (same ▸ exact_)]
    · intro same
      rw [same, Double.ofNat_of_le (Nat.le_of_lt exact_)]
  unfold checkRow
  split
  · next foreign =>
      have apart : ¬(row.org = org ∧ row.origin = origin) := by
        rcases foreign with other | other
        · exact fun own => other own.1
        · exact fun own => other own.2
      simp [clean, apart]
  · next own =>
      simp only [not_or, not_not] at own
      simp only [clean, Option.none_or, reached, own, and_self, true_and]
      split
      · next gap => simpa using fun same => absurd (number.mpr same) gap
      · next next_ =>
          have follows := number.mp (not_not.mp next_)
          split
          · next broken => simpa [follows] using broken
          · next linked => simpa [follows] using linked

theorem checkRow_prev (own : row.org = org ∧ row.origin = origin)
    : (checkRow org origin state row).prev
      = some { seq := Double.ofNat row.seq, hash := rowHash row } := by
  simp [checkRow, own]

/-- Rows are read without a break exactly where they continue this chain, by induction over
them; there are too few for a sequence to be rounded.
-/
theorem foldl_checkRow_first_iff (clean : state.first = none)
    (reached : (state.prev.map Link.seq).getD 0 = seq)
    (exact_ : seq + rows.length < Double.exactLimit)
    : (rows.foldl (checkRow org origin) state).first = none
      ↔ Own org origin rows
        ∧ Linked Row.seq Row.prevHash rowHash seq (state.prev.map Link.hash) rows := by
  induction rows generalizing state seq with
  | nil => simp [clean, Own, Linked]
  | cons row rest ih =>
      simp only [List.length_cons] at exact_
      have step := @checkRow_first_iff row org origin state seq clean reached (by omega)
      have next (own : row.org = org ∧ row.origin = origin) (follows : row.seq = seq + 1)
          : ((checkRow org origin state row).prev.map Link.seq).getD 0 = seq + 1 := by
        have number : Double.ofNat row.seq = seq + 1 := by
          rw [follows, Double.ofNat_of_le (by omega)]
        rw [checkRow_prev own]
        exact number
      rw [List.foldl_cons]
      constructor
      · intro h
        obtain ⟨own, follows, linked⟩ := step.mp (foldl_checkRow_first h)
        obtain ⟨all, others⟩ :=
          (ih (foldl_checkRow_first h) (next own follows) (by omega)).mp h
        rw [checkRow_prev own] at others
        exact ⟨List.forall_mem_cons.mpr ⟨own, all⟩, follows, linked, others⟩
      · intro h
        obtain ⟨all, follows, linked, others⟩ := h
        obtain ⟨own, rest_⟩ := List.forall_mem_cons.mp all
        refine (ih (step.mpr ⟨own, follows, linked⟩) (next own follows) (by omega)).mpr ?_
        rw [checkRow_prev own]
        exact ⟨rest_, others⟩

/-- The hash found for a wanted sequence is that of the row that has it, by induction over the
rows from the last.
-/
theorem foldl_checkRow_wanted (own : Own org origin rows)
    (exact_ : ∀ row ∈ rows, row.seq ≤ Double.exactLimit) (distinct : (rows.map Row.seq).Nodup)
    (wanted : state.wanted.get? seq = some none)
    : ∃ found, (rows.foldl (checkRow org origin) state).wanted.get? seq = some found
        ∧ ∀ hash, found = some hash ↔ ∃ row ∈ rows, row.seq = seq ∧ rowHash row = hash := by
  induction rows using List.reverseRecOn with
  | nil => exact ⟨none, wanted, by simp⟩
  | append_singleton rest row ih =>
      rw [List.map_append, List.nodup_append] at distinct
      obtain ⟨restDistinct, -, apart⟩ := distinct
      obtain ⟨found, before, hashes⟩ := ih
        (fun other member => own other (List.mem_append_left _ member))
        (fun other member => exact_ other (List.mem_append_left _ member)) restDistinct
      have last : row ∈ rest ++ [row] := by simp
      have number := Double.ofNat_of_le (exact_ row last)
      rw [List.foldl_append]
      simp only [List.foldl_cons, List.foldl_nil, checkRow, own row last, ne_eq,
        not_true_eq_false, or_self, if_false, number]
      by_cases same : row.seq = seq
      · have has : (rest.foldl (checkRow org origin) state).wanted.has row.seq = true :=
          JsMap.has_of_get? (same ▸ before)
        refine ⟨some (rowHash row), ?_, ?_⟩
        · rw [if_pos has, JsMap.get?_set, if_pos same.symm]
        · intro hash
          constructor
          · intro h
            exact ⟨row, last, same, Option.some.inj h⟩
          · intro h
            obtain ⟨other, member, otherSame, rfl⟩ := h
            rcases List.mem_append.mp member with inside | only
            · exact absurd (otherSame.trans same.symm)
                (apart _ (List.mem_map_of_mem inside) _ (by simp))
            · rw [List.mem_singleton.mp only]
      · refine ⟨found, ?_, ?_⟩
        · split
          · rw [JsMap.get?_set, if_neg (Ne.symm same), before]
          · exact before
        · intro hash
          rw [hashes]
          constructor
          · intro h
            obtain ⟨other, member, rest_⟩ := h
            exact ⟨other, List.mem_append_left _ member, rest_⟩
          · intro h
            obtain ⟨other, member, otherSame, rest_⟩ := h
            rcases List.mem_append.mp member with inside | only
            · exact ⟨other, inside, otherSame, rest_⟩
            · exact absurd (List.mem_singleton.mp only ▸ otherSame) same

variable {anchors : List Link}

theorem wantedOf_get? {anchor : Link} (h : anchor ∈ anchors)
    : (wantedOf anchors).get? anchor.seq = some none := by
  rw [wantedOf, JsMap.get?_bindAll]
  cases found : anchors.reverse.find? fun other => other.seq = anchor.seq with
  | some _ => rfl
  | none =>
      have absent := List.find?_eq_none.mp found anchor (List.mem_reverse.mpr h)
      simp at absent

theorem failures_eq_nil_iff {wanted : JsMap Nat (Option JsString)}
    : failures wanted anchors = []
      ↔ ∀ anchor ∈ anchors, (wanted.get? anchor.seq).join = some anchor.hash := by
  simp [failures, List.filter_eq_nil_iff]

theorem Chained.distinct (h : Chained rows)
    : (rows.map Row.seq).Nodup := by
  rw [Linked.seqs h]
  exact List.nodup_range'

/-- The verifier accepts a table with a list of anchors exactly where its rows in order are one
chain of this org and origin, and every anchor names a row with its hash.
-/
theorem verifyChain_ok_iff {table : Table}
    : (verifyChain org origin anchors table).ok = true
      ↔ Own org origin (ordered table) ∧ Chained (ordered table)
        ∧ ∀ anchor ∈ anchors, ∃ row ∈ ordered table,
          row.seq = anchor.seq ∧ rowHash row = anchor.hash := by
  have few : (ordered table).length < Double.exactLimit :=
    (ordered_perm table).length_eq ▸ table.few
  have unbroken := @foldl_checkRow_first_iff org origin
    { first := none, prev := none, rows := 0, wanted := wantedOf anchors } (ordered table) 0 rfl
    rfl (by omega)
  simp only [verifyChain, Bool.and_eq_true, Option.isNone_iff_eq_none, List.isEmpty_iff,
    failures_eq_nil_iff, readRows_eq, unbroken, and_assoc]
  refine and_congr_right fun own => and_congr_right fun chained => ?_
  refine forall₂_congr fun anchor member => ?_
  have exact_ : ∀ row ∈ ordered table, row.seq ≤ Double.exactLimit := by
    intro row inside
    have bounds := Linked.bounds chained inside
    omega
  obtain ⟨found, at_, hashes⟩ := @foldl_checkRow_wanted org origin
    { first := none, prev := none, rows := 0, wanted := wantedOf anchors } _ _ own exact_
    (Chained.distinct chained) (wantedOf_get? member)
  rw [at_, Option.join_some, hashes]

end PiFabric.Records
