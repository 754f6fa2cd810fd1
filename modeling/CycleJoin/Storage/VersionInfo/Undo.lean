import CycleJoin.Storage.VersionInfo.Group

/-!
# The undo buffer of a transaction

The records of a transaction say which rows it has appended and deleted, so that a rollback that takes
them back from the last to the first, and a commit that stamps them from the first to the last, leave
no trace of its ID.

* `Undoes`: the records of a transaction, with what each finds in the log when it is taken back.
* `Undoes.frame`: other transactions do not touch what the records say.
* `Undoes.rollbackRecords`, `Tracks.commitRecords`: the versions after a rollback and after a commit.
-/

namespace CycleJoin

open List RowLog Function

/-! ## Logs with the same rows -/

/-- Two logs agree on all rows. -/
structure RowLog.SameRows (log log' : RowLog) : Prop where
  numRows : log'.numRows = log.numRows
  inserted : ∀ r < log.numRows, log'.insertedBy r = log.insertedBy r
  deleted : ∀ r < log.numRows, log'.deletedBy r = log.deletedBy r

variable {id : Nat} {log log' log'' : RowLog} {records : List VersionRecord}
  {ok : Stamp → Nat → Prop} {lost : Stamp → Prop} {group : ChunkedVersions}

theorem GroupMatches.congr (h : GroupMatches ok lost log group) (hsame : log.SameRows log') :
    GroupMatches ok lost log' group where
  numRows := h.numRows.trans hsame.numRows.symm
  entries := fun v => (h.entries v).congr (by rw [hsame.numRows])
    (fun _ hi => hsame.inserted _ (rowOf_lt hi)) fun _ hi => hsame.deleted _ (rowOf_lt hi)

theorem GroupMatches.mono {ok' : Stamp → Nat → Prop} {lost' : Stamp → Prop} (h : GroupMatches ok lost log group)
    (hok : ∀ r < log.numRows, ∀ w, ok (log.insertedBy r) w → ok' (log.insertedBy r) w)
    (hlost : ∀ r < log.numRows, lost (log.insertedBy r) → lost' (log.insertedBy r)) :
    GroupMatches ok' lost' log group where
  numRows := h.numRows
  entries := fun v => by
    have hv := h.entries v
    cases he : group.entry v with
    | none => rwa [he] at hv
    | some vector =>
      rw [he] at hv
      exact hv.mono (fun i hi => hok _ (rowOf_lt hi)) fun i hi => hlost _ (rowOf_lt hi)

/-! ## The records of a transaction -/

/-- The log, when a record is taken back. -/
def RowLog.undo (log : RowLog) : VersionRecord → RowLog
  | .insert startRow _ => { log with numRows := startRow }
  | .delete row => log.setDeleted row none

/-- What a record of a transaction finds in the log when it is taken back. -/
def Undoable (id : Nat) (log : RowLog) : VersionRecord → Prop
  | .insert startRow num => 0 < num ∧ log.numRows = startRow + num ∧
      ∀ r, startRow ≤ r → r < startRow + num →
        log.insertedBy r = .pending id ∧ log.deletedBy r = none
  | .delete row => row < log.numRows ∧ log.deletedBy row = some (.pending id) ∧
      ∀ id', log.insertedBy row = .pending id' → id' = id

/-- The records of a transaction, the newest first. Without them the log knows nothing of the
transaction. -/
def Undoes (id : Nat) (log : RowLog) : List VersionRecord → Prop
  | [] => ∀ r < log.numRows, log.insertedBy r ≠ .pending id ∧ log.deletedBy r ≠ some (.pending id)
  | record :: records => Undoable id log record ∧ Undoes id (log.undo record) records

/-- Other transactions append, delete, commit and roll back. Rows come and go only if the transaction
has appended none. -/
theorem Undoes.frame (h : Undoes id log records)
    (hnum : log'.numRows = log.numRows ∨ ∀ record ∈ records, ¬ record.IsInsert)
    (hgone : ∀ r < log.numRows, log'.numRows ≤ r → log.deletedBy r ≠ some (.pending id))
    (hnew : ∀ r, log.numRows ≤ r → r < log'.numRows →
      log'.insertedBy r ≠ .pending id ∧ log'.deletedBy r ≠ some (.pending id))
    (hins : ∀ r < log.numRows, log'.insertedBy r = .pending id ↔ log.insertedBy r = .pending id)
    (hpend : ∀ r < log.numRows, ∀ id', log'.insertedBy r = .pending id' →
      log.insertedBy r = .pending id') (hdel : ∀ r < log.numRows,
      log'.deletedBy r = some (.pending id) ↔ log.deletedBy r = some (.pending id))
    (hnone : ∀ r < log.numRows, log.insertedBy r = .pending id → log.deletedBy r = none →
      log'.deletedBy r = none) : Undoes id log' records := by
  induction records generalizing log log' with
  | nil =>
    intro r hr
    by_cases hr' : r < log.numRows
    · rw [ne_eq, ne_eq, hins r hr', hdel r hr']
      exact h r hr'
    · exact hnew r (by omega) hr
  | cons record records ih =>
    obtain ⟨hrec, hrest⟩ := h
    cases record with
    | insert startRow num =>
      obtain ⟨hpos, hrows, hrange⟩ := hrec
      have hnum : log'.numRows = log.numRows := hnum.resolve_right fun hno => hno _ mem_cons_self trivial
      refine ⟨⟨hpos, hnum.trans hrows, fun r hr hr' => ?_⟩, ih hrest (.inl rfl) ?_ ?_ ?_ ?_ ?_ ?_⟩
      · have hlt : r < log.numRows := by omega
        exact ⟨(hins r hlt).mpr (hrange r hr hr').1, hnone r hlt (hrange r hr hr').1 (hrange r hr hr').2⟩
      · exact fun r hr hr' => absurd hr (not_lt.mpr hr')
      · exact fun r hr hr' => absurd hr' (not_lt.mpr hr)
      all_goals
        intro r hr
        have hlt : r < log.numRows := by
          have hr : r < startRow := hr
          omega
      · exact hins r hlt
      · exact hpend r hlt
      · exact hdel r hlt
      · exact hnone r hlt
    | delete row =>
      obtain ⟨hrow, hpending, howner⟩ := hrec
      have hrow' : row < log'.numRows := not_le.mp fun hle => hgone row hrow hle hpending
      refine ⟨⟨hrow', (hdel row hrow).mpr hpending, fun id' hid' => howner id' (hpend row hrow id' hid')⟩,
        ih hrest (hnum.imp_right fun hno record hr => hno record (mem_cons_of_mem _ hr)) ?_ ?_ hins hpend ?_ ?_⟩
      · intro r hr hr'
        have hne : r ≠ row := fun heq => by
          have hr' : log'.numRows ≤ r := hr'
          omega
        simpa [undo, setDeleted, hne] using hgone r hr hr'
      · intro r hr hr'
        have hne : r ≠ row := fun heq => by
          have hr : log.numRows ≤ r := hr
          omega
        simpa [undo, setDeleted, hne] using hnew r hr hr'
      · intro r hr
        by_cases hne : r = row
        · simp [undo, setDeleted, hne]
        · simpa [undo, setDeleted, hne] using hdel r hr
      · intro r hr hr' hd
        by_cases hne : r = row
        · simp [undo, setDeleted, hne]
        · simp only [undo, setDeleted, update_of_ne hne] at hd ⊢
          exact hnone r hr hr' hd

theorem Undoes.congr (h : Undoes id log records) (hsame : log.SameRows log') : Undoes id log' records := by
  refine h.frame (.inl hsame.numRows) ?_ ?_ ?_ ?_ ?_ ?_
  · exact fun r hr hr' => absurd hr (not_lt.mpr (hsame.numRows ▸ hr'))
  · exact fun r hr hr' => absurd hr' (not_lt.mpr (hsame.numRows.symm ▸ hr))
  · exact fun r hr => by rw [hsame.inserted r hr]
  · exact fun r hr id' h => by rwa [hsame.inserted r hr] at h
  · exact fun r hr => by rw [hsame.deleted r hr]
  · exact fun r hr _ h => by rwa [hsame.deleted r hr]

/-! ## Rollback -/

theorem RowLog.rollback_numRows_le (log : RowLog) (id : Nat) : (log.rollback id).numRows ≤ log.numRows := by
  have h := (takeWhile_sublist (l := range log.numRows) fun r => decide (log.insertedBy r ≠ .pending id)).length_le
  rwa [length_range] at h

theorem takeWhile_range_length_eq {p : Nat → Bool} {n : Nat} (h : ∀ r < n, p r = true) :
    ((range n).takeWhile p).length = n := by
  rw [takeWhile_eq_self_iff.mpr fun r hr => h r (mem_range.mp hr), length_range]

/-- A row that is not of the transaction stays if all rows before it do. -/
theorem takeWhile_range_add {p : Nat → Bool} (a n : Nat) (h : p a = false) :
    (range (a + (n + 1))).takeWhile p = (range a).takeWhile p := by
  have hrest : ((range (n + 1)).map (a + ·)).takeWhile p = [] := by simp [range_succ_eq_map, h]
  rw [range_add, takeWhile_append, hrest]
  split
  · next hall => rw [append_nil, (takeWhile_sublist p).eq_of_length hall]
  · rfl

/-- The rows that stay are of others. -/
theorem RowLog.rollback_inserted_ne {r : Nat} (hr : r < (log.rollback id).numRows) :
    log.insertedBy r ≠ .pending id := by
  have hget := getElem_mem (l := (range log.numRows).takeWhile fun r => decide (log.insertedBy r ≠ .pending id)) hr
  have hmem := mem_takeWhile_imp hget
  rw [( takeWhile_prefix _).getElem hr, getElem_range] at hmem
  exact of_decide_eq_true hmem

variable {record : VersionRecord}

theorem Undoable.sameRows_rollback (h : Undoable id log record) :
    ((log.undo record).rollback id).SameRows (log.rollback id) := by
  cases record with
  | insert startRow num =>
    obtain ⟨hpos, hnum, hrange⟩ := h
    refine ⟨?_, fun _ _ => rfl, fun _ _ => rfl⟩
    obtain ⟨n, rfl⟩ : ∃ n, num = n + 1 := ⟨num - 1, by omega⟩
    have hrow := (hrange startRow le_rfl (by omega)).1
    simp only [rollback, hnum]
    rw [takeWhile_range_add startRow n (by simp [hrow])]
    rfl
  | delete row =>
    refine ⟨rfl, fun _ _ => rfl, fun r _ => ?_⟩
    by_cases hr : r = row
    · subst hr
      simp [rollback, undo, setDeleted, h.2.1]
    · simp [rollback, undo, setDeleted, hr]

theorem Undoes.sameRows_rollback (h : Undoes id log []) : log.SameRows (log.rollback id) where
  numRows := takeWhile_range_length_eq fun r hr => decide_eq_true (h r hr).1
  inserted := fun _ _ => rfl
  deleted := fun r hr => if_neg (h r hr).2

theorem RowLog.Valid.undo (h : log.Valid) (hrec : Undoable id log record) : (log.undo record).Valid := by
  cases record with
  | insert startRow num =>
    have hle : ∀ r < startRow, r < log.numRows := fun r hr => by
      have := hrec.2.1
      omega
    exact ⟨fun r hr => h.inserted r (hle r hr), fun r hr => h.deleted r (hle r hr)⟩
  | delete row =>
    refine ⟨h.inserted, fun r hr s hs => ?_⟩
    by_cases hne : r = row
    · simp [undo, setDeleted, hne] at hs
    · simp only [undo, setDeleted, update_of_ne hne] at hs
      exact h.deleted r hr s hs

theorem GroupMatches.rollbackRecord (h : GroupMatches exactVersion (· = .pending id) log group)
    (hval : log.Valid) (hid : (Stamp.pending id).Valid) (hrec : Undoable id log record) :
    ∃ group', VersionSystem.rollbackRecord group record = some group' ∧ group.SameShape group' ∧
      GroupMatches exactVersion (· = .pending id) (log.undo record) group' := by
  cases record with
  | insert startRow num => exact h.rollbackInsert hval hid.1 hrec.1 hrec.2.1 hrec.2.2
  | delete row => exact h.rollbackDelete hval hid hrec.1 hrec.2.1

theorem Undoes.rollbackRecords (h : Undoes id log records)
    (hmatch : GroupMatches exactVersion (· = .pending id) log group) (hval : log.Valid)
    (hid : (Stamp.pending id).Valid) :
    ∃ group', records.foldlM VersionSystem.rollbackRecord group = some group' ∧
      group.SameShape group' ∧ GroupExact (log.rollback id) group' := by
  induction records generalizing log group with
  | nil => exact ⟨group, rfl, ⟨rfl, rfl⟩,
      (hmatch.mono (fun _ _ _ hok => hok) fun r hr => (h r hr).1).congr h.sameRows_rollback⟩
  | cons record records ih =>
    obtain ⟨hrec, hrest⟩ := h
    obtain ⟨group₁, hgroup₁, hshape₁, hmatch₁⟩ := hmatch.rollbackRecord hval hid hrec
    obtain ⟨group', hgroup', hshape', hexact⟩ := ih hrest hmatch₁ (hval.undo hrec)
    refine ⟨group', ?_, ⟨hshape'.1.trans hshape₁.1, hshape'.2.trans hshape₁.2⟩, hexact.congr hrec.sameRows_rollback⟩
    rw [foldlM_cons, hgroup₁]
    exact hgroup'

/-- The rows that go are of the transaction. -/
theorem Undoes.inserted_of_rollback (h : Undoes id log records) {r : Nat} (hr : r < log.numRows)
    (hgone : (log.rollback id).numRows ≤ r) : log.insertedBy r = .pending id := by
  induction records generalizing log with
  | nil =>
    rw [h.sameRows_rollback.numRows] at hgone
    exact absurd hr (not_lt.mpr hgone)
  | cons record records ih =>
    obtain ⟨hrec, hrest⟩ := h
    rw [hrec.sameRows_rollback.numRows] at hgone
    cases record with
    | insert startRow num =>
      by_cases hlt : r < startRow
      · have hins := ih hrest hlt hgone
        exact hins
      · obtain ⟨-, hnum, hrange⟩ := hrec
        exact (hrange r (by omega) (by omega)).1
    | delete row =>
      have hins := ih hrest hr hgone
      exact hins

/-! ## Commit -/

/-- What a record of a transaction says about the log. -/
def Pending (id : Nat) (log : RowLog) : VersionRecord → Prop
  | .insert startRow num => 0 < num ∧ startRow + num ≤ log.numRows ∧
      ∀ r, startRow ≤ r → r < startRow + num → log.insertedBy r = .pending id
  | .delete row => row < log.numRows ∧ log.deletedBy row = some (.pending id) ∧
      ∀ id', log.insertedBy row = .pending id' → id' = id

/-- Two records of different rows. -/
def Apart : VersionRecord → VersionRecord → Prop
  | .insert a n, .insert b m => a + n ≤ b ∨ b + m ≤ a
  | .delete r, .delete r' => r ≠ r'
  | _, _ => True

/-- The records of a transaction, in any order: they say what the log knows of the transaction. -/
structure Tracks (id : Nat) (log : RowLog) (records : List VersionRecord) : Prop where
  pending : ∀ record ∈ records, Pending id log record
  apart : records.Pairwise Apart
  inserted : ∀ r < log.numRows, log.insertedBy r = .pending id →
    ∃ startRow num, .insert startRow num ∈ records ∧ startRow ≤ r ∧ r < startRow + num
  deleted : ∀ r < log.numRows, log.deletedBy r = some (.pending id) → .delete r ∈ records

theorem Apart.symm {x y : VersionRecord} (h : Apart x y) : Apart y x := by
  cases x <;> cases y
  · exact Or.symm h
  · trivial
  · trivial
  · exact Ne.symm h

theorem Tracks.reverse (h : Tracks id log records) : Tracks id log records.reverse where
  pending := fun record hr => h.pending record (mem_reverse.mp hr)
  apart := pairwise_reverse.mpr (h.apart.imp Apart.symm)
  inserted := fun r hr hins => by
    obtain ⟨a, n, hmem, hrow⟩ := h.inserted r hr hins
    exact ⟨a, n, mem_reverse.mpr hmem, hrow⟩
  deleted := fun r hr hdel => mem_reverse.mpr (h.deleted r hr hdel)

theorem Undoable.pending (h : Undoable id log record) : Pending id log record := by
  cases record with
  | insert a n => exact ⟨h.1, h.2.1.ge, fun r hr hr' => (h.2.2 r hr hr').1⟩
  | delete r => exact h

/-- A record that stands in the log without the newest one. -/
theorem Undoable.pending_undo {record record' : VersionRecord} (h : Undoable id log record)
    (h' : Pending id (log.undo record) record') : Pending id log record' ∧ Apart record record' := by
  cases record with
  | insert a n =>
    have hnum := h.2.1
    cases record' with
    | insert b m =>
      obtain ⟨hpos, hle, hrange⟩ := h'
      have hle : b + m ≤ a := hle
      exact ⟨⟨hpos, by omega, hrange⟩, .inr hle⟩
    | delete r =>
      obtain ⟨hlt, hdel, howner⟩ := h'
      have hlt : r < a := hlt
      exact ⟨⟨by omega, hdel, howner⟩, trivial⟩
  | delete row =>
    cases record' with
    | insert b m => exact ⟨h', trivial⟩
    | delete r =>
      obtain ⟨hlt, hdel, howner⟩ := h'
      have hne : r ≠ row := fun heq => by simp [undo, setDeleted, heq] at hdel
      simp only [undo, setDeleted, update_of_ne hne] at hdel
      exact ⟨⟨hlt, hdel, howner⟩, hne.symm⟩

theorem Undoes.tracks (h : Undoes id log records) : Tracks id log records := by
  induction records generalizing log with
  | nil => exact ⟨by simp, .nil, fun r hr hins => absurd hins (h r hr).1,
      fun r hr hdel => absurd hdel (h r hr).2⟩
  | cons record records ih =>
    obtain ⟨hrec, hrest⟩ := h
    have htail := ih hrest
    refine ⟨fun x hx => ?_, pairwise_cons.mpr ⟨fun x hx =>
      (hrec.pending_undo (htail.pending x hx)).2, htail.apart⟩, fun r hr hins => ?_,
      fun r hr hdel => ?_⟩
    · rcases mem_cons.mp hx with rfl | hx
      · exact hrec.pending
      · exact (hrec.pending_undo (htail.pending x hx)).1
    · have hold (hr : r < (log.undo record).numRows) (hins : (log.undo record).insertedBy r = .pending id) :
          ∃ startRow num, .insert startRow num ∈ record :: records ∧ startRow ≤ r ∧ r < startRow + num := by
        obtain ⟨a, n, hmem, hrow⟩ := htail.inserted r hr hins
        exact ⟨a, n, mem_cons_of_mem _ hmem, hrow⟩
      cases record with
      | insert a n =>
        by_cases hlt : r < a
        · exact hold hlt hins
        · exact ⟨a, n, mem_cons_self, by omega, hrec.2.1 ▸ hr⟩
      | delete row => exact hold hr hins
    · cases record with
      | insert a n =>
        by_cases hlt : r < a
        · exact mem_cons_of_mem _ (htail.deleted r hlt hdel)
        · have hnone := (hrec.2.2 r (by omega) (hrec.2.1 ▸ hr)).2
          rw [hnone] at hdel
          cases hdel
      | delete row =>
        by_cases hne : r = row
        · rw [hne]
          exact mem_cons_self
        · refine mem_cons_of_mem _ (htail.deleted r hr ?_)
          simpa [undo, setDeleted, hne] using hdel

/-- The log, when a record is stamped. -/
def RowLog.stamp (log : RowLog) (ts : Nat) : VersionRecord → RowLog
  | .insert startRow num => log.setInserted startRow num (.committed ts)
  | .delete row => log.setDeleted row (some (.committed ts))

theorem Pending.sameRows_commit (h : Pending id log record) (ts : Nat) :
    ((log.stamp ts record).commit id ts).SameRows (log.commit id ts) := by
  cases record with
  | insert a n =>
    refine ⟨rfl, fun r _ => ?_, fun _ _ => rfl⟩
    by_cases hr : a ≤ r ∧ r < a + n
    · simp [commit, stamp, setInserted, h.2.2 r hr.1 hr.2, Stamp.commit]
    · simp [commit, stamp, setInserted, if_neg hr]
  | delete row =>
    refine ⟨rfl, fun _ _ => rfl, fun r _ => ?_⟩
    by_cases hr : r = row
    · subst hr
      simp [commit, stamp, setDeleted, h.2.1, Stamp.commit]
    · simp [commit, stamp, setDeleted, hr]

/-- The other records still stand in the log. -/
theorem Tracks.stamp (h : Tracks id log (record :: records)) (ts : Nat) :
    Tracks id (log.stamp ts record) records := by
  obtain ⟨hhead, htail⟩ := pairwise_cons.mp h.apart
  have hcons {x : VersionRecord} (hx : x ∈ record :: records) (hne : x ≠ record) : x ∈ records :=
    (mem_cons.mp hx).resolve_left hne
  cases record with
  | insert a n =>
    refine ⟨fun x hx => ?_, htail, fun r hr hins => ?_, fun r hr hdel =>
      hcons (h.deleted r hr hdel) (by simp)⟩
    · have hpend := h.pending x (mem_cons_of_mem _ hx)
      cases x with
      | insert b m =>
        refine ⟨hpend.1, hpend.2.1, fun r hr hr' => ?_⟩
        have hap : a + n ≤ b ∨ b + m ≤ a := hhead _ hx
        have hout : ¬ (a ≤ r ∧ r < a + n) := by omega
        simpa only [stamp, setInserted, if_neg hout] using hpend.2.2 r hr hr'
      | delete row =>
        refine ⟨hpend.1, hpend.2.1, fun id' hid' => hpend.2.2 id' ?_⟩
        by_cases hin : a ≤ row ∧ row < a + n
        · simp [stamp, setInserted, hin] at hid'
        · simpa only [stamp, setInserted, if_neg hin] using hid'
    · by_cases hin : a ≤ r ∧ r < a + n
      · simp [stamp, setInserted, hin] at hins
      · simp only [stamp, setInserted, if_neg hin] at hins
        obtain ⟨b, m, hmem, hrow⟩ := h.inserted r hr hins
        refine ⟨b, m, hcons hmem fun heq => hin ?_, hrow⟩
        cases heq
        exact hrow
  | delete row =>
    refine ⟨fun x hx => ?_, htail, fun r hr hins => ?_, fun r hr hdel => ?_⟩
    · have hpend := h.pending x (mem_cons_of_mem _ hx)
      cases x with
      | insert b m => exact hpend
      | delete row' =>
        have hne : row' ≠ row := Ne.symm (hhead _ hx)
        refine ⟨hpend.1, ?_, hpend.2.2⟩
        simpa [stamp, setDeleted, hne] using hpend.2.1
    · obtain ⟨b, m, hmem, hrow⟩ := h.inserted r hr hins
      exact ⟨b, m, hcons hmem (by simp), hrow⟩
    · have hne : r ≠ row := fun heq => by simp [stamp, setDeleted, heq] at hdel
      simp only [stamp, setDeleted, update_of_ne hne] at hdel
      exact hcons (h.deleted r hr hdel) fun heq => hne (by cases heq; rfl)

variable {ts : Nat}

theorem RowLog.Valid.stamp (h : log.Valid) (hts : ts < startTransactionID)
    (record : VersionRecord) : (log.stamp ts record).Valid := by
  cases record with
  | insert a n =>
    refine ⟨fun r hr => ?_, h.deleted⟩
    simp only [RowLog.stamp, setInserted]
    split
    · exact hts
    · exact h.inserted r hr
  | delete row =>
    refine ⟨h.inserted, fun r hr s hs => ?_⟩
    by_cases hne : r = row
    · simp only [RowLog.stamp, setDeleted, hne, update_self, Option.mem_def, Option.some.injEq] at hs
      exact hs ▸ hts
    · simp only [RowLog.stamp, setDeleted, update_of_ne hne] at hs
      exact h.deleted r hr s hs

theorem GroupMatches.commitRecord (h : GroupMatches (VectorVersionInfo.committing id ts) (fun _ => False) log group)
    (hval : log.Valid) (hid : startTransactionID ≤ id) (hts : ts < startTransactionID)
    (hrec : Pending id log record) :
    ∃ group', VersionSystem.commitRecord ts group record = some group' ∧ group.SameShape group' ∧
      GroupMatches (VectorVersionInfo.committing id ts) (fun _ => False) (log.stamp ts record)
        group' := by
  cases record with
  | insert startRow num => exact h.commitInsert hval hid hts hrec.1 hrec.2.1 hrec.2.2
  | delete row => exact h.commitDelete hrec.1 hrec.2.1

theorem Tracks.sameRows_commit (h : Tracks id log []) (ts : Nat) : log.SameRows (log.commit id ts) where
  numRows := rfl
  inserted := fun r hr => if_neg fun hins => by simpa using h.inserted r hr hins
  deleted := fun r hr => by
    simp only [commit]
    cases hd : log.deletedBy r with
    | none => rfl
    | some s =>
      have hne : s ≠ .pending id := fun heq => by simpa using h.deleted r hr (heq ▸ hd)
      rw [Option.map_some, Stamp.commit, if_neg hne]

theorem Tracks.commitRecords (h : Tracks id log records)
    (hmatch : GroupMatches (VectorVersionInfo.committing id ts) (fun _ => False) log group)
    (hval : log.Valid) (hid : startTransactionID ≤ id) (hts : ts < startTransactionID) :
    ∃ group', records.foldlM (VersionSystem.commitRecord ts) group = some group' ∧
      group.SameShape group' ∧ GroupExact (log.commit id ts) group' := by
  induction records generalizing log group with
  | nil =>
    have hno (r : Nat) (hr : r < log.numRows) : log.insertedBy r ≠ .pending id := fun hins => by
      simpa using h.inserted r hr hins
    exact ⟨group, rfl, ⟨rfl, rfl⟩, (hmatch.mono
      (fun r hr w hok => hok.resolve_right fun hp => hno r hr hp.1) fun _ _ hf => hf).congr (h.sameRows_commit ts)⟩
  | cons record records ih =>
    have hrec := h.pending record mem_cons_self
    obtain ⟨group₁, hgroup₁, hshape₁, hmatch₁⟩ := hmatch.commitRecord hval hid hts hrec
    obtain ⟨group', hgroup', hshape', hexact⟩ := ih (h.stamp ts) hmatch₁ (hval.stamp hts record)
    refine ⟨group', ?_, ⟨hshape'.1.trans hshape₁.1, hshape'.2.trans hshape₁.2⟩,
      hexact.congr (hrec.sameRows_commit ts)⟩
    rw [foldlM_cons, hgroup₁]
    exact hgroup'

end CycleJoin
