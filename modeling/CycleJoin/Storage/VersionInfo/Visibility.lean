import CycleJoin.Storage.VersionInfo.Undo

/-!
# Snapshot visibility of row versions

The versions of a chunked node group stand for its log in every run of allowed events
(`VersionInv.run`). So a transaction reads exactly the rows that its snapshot has, and `delete_` tells
apart the rows that the transaction has deleted itself and those that others have
(`VersionSystem.run_showsSnapshots`).
-/

namespace CycleJoin

open List VersionSystem RowLog

/-- The ID and the start timestamp of a transaction are in their ranges. -/
structure Transaction.Proper (t : Transaction) : Prop where
  id_ge : startTransactionID ≤ t.id
  id_lt : t.id < invalidTransaction
  startTS_lt : t.startTS < startTransactionID

/-- What holds between events. -/
structure VersionInv (s : VersionSystem) : Prop where
  exact : GroupExact s.log s.group
  valid : s.log.Valid
  inMemory : s.group.residencyState = .inMemory →
    ∀ r < s.log.numRows, s.log.insertedBy r ≠ .checkpointed
  lastTimestamp : s.lastTimestamp < startTransactionID
  ids : (s.activeTransactions.map (·.id)).Nodup
  proper : ∀ t ∈ s.activeTransactions, t.Proper
  undoes : ∀ t ∈ s.activeTransactions, Undoes t.id s.log t.undoBuffer
  owned : ∀ r < s.log.numRows, ∀ id,
    s.log.insertedBy r = .pending id ∨ s.log.deletedBy r = some (.pending id) →
      ∃ t ∈ s.activeTransactions, t.id = id
  appender : ∀ t ∈ s.activeTransactions, ∀ t' ∈ s.activeTransactions,
    (∃ record ∈ t.undoBuffer, record.IsInsert) → (∃ record ∈ t'.undoBuffer, record.IsInsert) →
      t.id = t'.id

namespace VersionInv

variable {s s' : VersionSystem} {id : Nat} {t t' : VersionTransaction}

theorem active?_eq_some (h : s.active? id = some t) : t ∈ s.activeTransactions ∧ t.id = id :=
  ⟨mem_of_find?_eq_some h, by simpa using find?_some h⟩

section
variable (h : VersionInv s) (ht : t ∈ s.activeTransactions)
include h ht

theorem eq_of_id (ht' : t' ∈ s.activeTransactions) (hid : t.id = t'.id) : t = t' :=
  inj_on_of_nodup_map h.ids ht ht' hid

theorem pending_valid : (Stamp.pending t.id).Valid := ⟨(h.proper t ht).id_ge, (h.proper t ht).id_lt⟩

/-- A transaction without appends has no rows. -/
theorem not_inserted (hno : ∀ record ∈ t.undoBuffer, ¬ record.IsInsert) {r : Nat} (hr : r < s.log.numRows) :
    s.log.insertedBy r ≠ .pending t.id := by
  intro hins
  obtain ⟨a, n, hmem, -⟩ := (h.undoes t ht).tracks.inserted r hr hins
  exact hno _ hmem trivial

end

/-! ## The events -/

theorem begin (h : VersionInv s) (hok : s.Allowed (.begin id)) :
    ∃ s', s.step (.begin id) = some s' ∧ VersionInv s' := by
  obtain ⟨hge, hlt, hnew⟩ := hok
  refine ⟨_, rfl, h.exact, h.valid, h.inMemory, h.lastTimestamp, ?_, ?_, ?_, ?_, ?_⟩
  · rw [map_append, nodup_append]
    refine ⟨h.ids, by simp, fun a ha b hb => ?_⟩
    obtain ⟨t, ht, rfl⟩ := mem_map.mp ha
    rw [mem_singleton.mp hb]
    exact hnew t ht
  · intro t ht
    rcases mem_append.mp ht with ht | ht
    · exact h.proper t ht
    · rw [mem_singleton.mp ht]
      exact ⟨hge, hlt, h.lastTimestamp⟩
  · intro t ht
    rcases mem_append.mp ht with ht | ht
    · exact h.undoes t ht
    · rw [mem_singleton.mp ht]
      refine fun r hr => ⟨fun hins => ?_, fun hdel => ?_⟩
      · obtain ⟨t', ht', hid⟩ := h.owned r hr id (.inl hins)
        exact hnew t' ht' hid
      · obtain ⟨t', ht', hid⟩ := h.owned r hr id (.inr hdel)
        exact hnew t' ht' hid
  · intro r hr id' hid'
    obtain ⟨t, ht, hid⟩ := h.owned r hr id' hid'
    exact ⟨t, mem_append_left _ ht, hid⟩
  · intro t ht t' ht' hx hx'
    rcases mem_append.mp ht with ht | ht
    · rcases mem_append.mp ht' with ht' | ht'
      · exact h.appender t ht t' ht' hx hx'
      · rw [mem_singleton.mp ht'] at hx'
        simp at hx'
    · rw [mem_singleton.mp ht] at hx
      simp at hx

theorem mem_pushRecord {record : VersionRecord} :
    t' ∈ (s.pushRecord id record).activeTransactions ↔ ∃ t ∈ s.activeTransactions,
      t' = if t.id = id then { t with undoBuffer := record :: t.undoBuffer } else t := by
  simp [pushRecord, eq_comm]

theorem pushRecord_ids {record : VersionRecord} :
    (s.pushRecord id record).activeTransactions.map (·.id) = s.activeTransactions.map (·.id) := by
  simp only [pushRecord, map_map]
  refine map_congr_left fun t _ => ?_
  simp only [Function.comp_apply]
  split <;> rfl

variable (h : VersionInv s)
include h

theorem push (ht : t ∈ s.activeTransactions) {record : VersionRecord}
    {group : ChunkedVersions} {log : RowLog} (hexact : GroupExact log group) (hvalid : log.Valid)
    (hmem : group.residencyState = .inMemory → ∀ r < log.numRows, log.insertedBy r ≠ .checkpointed)
    (hself : Undoes t.id log (record :: t.undoBuffer))
    (hother : ∀ t' ∈ s.activeTransactions, t'.id ≠ t.id → Undoes t'.id log t'.undoBuffer)
    (howned : ∀ r < log.numRows, ∀ id, log.insertedBy r = .pending id ∨ log.deletedBy r = some (.pending id) →
        id = t.id ∨ r < s.log.numRows ∧ (s.log.insertedBy r = .pending id ∨ s.log.deletedBy r = some (.pending id)))
    (happ : record.IsInsert → ∀ t' ∈ s.activeTransactions, t'.id ≠ t.id →
      ∀ record ∈ t'.undoBuffer, ¬ record.IsInsert) :
    VersionInv (pushRecord { s with group := group, log := log } t.id record) := by
  refine ⟨hexact, hvalid, hmem, h.lastTimestamp, ?_, ?_, ?_, ?_, ?_⟩
  · rw [pushRecord_ids]
    exact h.ids
  · intro t' ht'
    obtain ⟨t₀, ht₀, rfl⟩ := mem_pushRecord.mp ht'
    split <;> exact h.proper t₀ ht₀
  · intro t' ht'
    obtain ⟨t₀, ht₀, rfl⟩ := mem_pushRecord.mp ht'
    split
    · next hid =>
      obtain rfl := h.eq_of_id ht₀ ht hid
      exact hself
    · next hid => exact hother t₀ ht₀ hid
  · intro r hr id hid
    obtain ⟨t₀, ht₀, hid₀⟩ : ∃ t₀ ∈ s.activeTransactions, t₀.id = id := by
      rcases howned r hr id hid with rfl | ⟨hr', hold⟩
      · exact ⟨t, ht, rfl⟩
      · exact h.owned r hr' id hold
    refine ⟨_, mem_pushRecord.mpr ⟨t₀, ht₀, rfl⟩, ?_⟩
    split <;> exact hid₀
  · -- a new append is the only one, and other records change nothing
    have hinserts {t₀ : VersionTransaction} (ht₀ : t₀ ∈ s.activeTransactions)
        (hx : ∃ x ∈ (if t₀.id = t.id then { t₀ with undoBuffer := record :: t₀.undoBuffer }
          else t₀).undoBuffer, x.IsInsert) :
        (∃ x ∈ t₀.undoBuffer, x.IsInsert) ∨ t₀.id = t.id ∧ record.IsInsert := by
      split at hx
      · next hid =>
        obtain ⟨x, hx, hins⟩ := hx
        rcases mem_cons.mp hx with rfl | hx
        · exact .inr ⟨hid, hins⟩
        · exact .inl ⟨x, hx, hins⟩
      · exact .inl hx
    have honly {t₀ : VersionTransaction} (ht₀ : t₀ ∈ s.activeTransactions) (hrec : record.IsInsert)
        (hx : ∃ x ∈ t₀.undoBuffer, x.IsInsert) : t₀.id = t.id := by
      by_contra hne
      obtain ⟨x, hx, hins⟩ := hx
      exact happ hrec t₀ ht₀ hne x hx hins
    intro t₁ ht₁ t₂ ht₂ hx₁ hx₂
    obtain ⟨u₁, hu₁, rfl⟩ := mem_pushRecord.mp ht₁
    obtain ⟨u₂, hu₂, rfl⟩ := mem_pushRecord.mp ht₂
    have hid : u₁.id = u₂.id := by
      rcases hinserts hu₁ hx₁ with hx₁ | ⟨hid₁, hrec⟩
      · rcases hinserts hu₂ hx₂ with hx₂ | ⟨hid₂, hrec⟩
        · exact h.appender u₁ hu₁ u₂ hu₂ hx₁ hx₂
        · exact (honly hu₁ hrec hx₁).trans hid₂.symm
      · rcases hinserts hu₂ hx₂ with hx₂ | ⟨hid₂, -⟩
        · exact hid₁.trans (honly hu₂ hrec hx₂).symm
        · exact hid₁.trans hid₂.symm
    split <;> split <;> exact hid

theorem clear {group : ChunkedVersions} {log : RowLog} {ts : Nat} (hexact : GroupExact log group) (hvalid : log.Valid)
    (hmem : group.residencyState = .inMemory → ∀ r < log.numRows, log.insertedBy r ≠ .checkpointed)
    (hts : ts < startTransactionID)
    (hother : ∀ t' ∈ s.activeTransactions, t'.id ≠ id → Undoes t'.id log t'.undoBuffer)
    (howned : ∀ r < log.numRows, ∀ id', log.insertedBy r = .pending id' ∨ log.deletedBy r = some (.pending id') →
        id' ≠ id ∧ r < s.log.numRows ∧
          (s.log.insertedBy r = .pending id' ∨ s.log.deletedBy r = some (.pending id'))) :
    VersionInv (clearTransaction
      { s with group := group, log := log, lastTimestamp := ts } id) := by
  have hfilter {t : VersionTransaction} (ht : t ∈ s.activeTransactions.filter (·.id ≠ id)) :
      t ∈ s.activeTransactions ∧ t.id ≠ id := by simpa using mem_filter.mp ht
  refine ⟨hexact, hvalid, hmem, hts, ?_, ?_, ?_, ?_, ?_⟩
  · exact h.ids.sublist ((filter_sublist).map _)
  · exact fun t ht => h.proper t (hfilter ht).1
  · exact fun t ht => hother t (hfilter ht).1 (hfilter ht).2
  · intro r hr id' hid'
    obtain ⟨hne, hr', hold⟩ := howned r hr id' hid'
    obtain ⟨t, ht, rfl⟩ := h.owned r hr' id' hold
    exact ⟨t, mem_filter.mpr ⟨ht, by simpa using hne⟩, rfl⟩
  · exact fun t ht t' ht' => h.appender t (hfilter ht).1 t' (hfilter ht').1

theorem append {n : Nat} (hok : s.Allowed (.append id n)) :
    ∃ s', s.step (.append id n) = some s' ∧ VersionInv s' := by
  cases hact : s.active? id with
  | none => exact ⟨s, by simp [step, hact], h⟩
  | some t =>
    obtain ⟨ht, rfl⟩ := active?_eq_some hact
    obtain ⟨hres, hn, hcap, hone⟩ := hok
    -- the rows of the group are committed or of the transaction
    have hins (r : Nat) (hr : r < s.log.numRows) : s.log.insertedBy r ≠ .checkpointed ∧
        ((∃ ts, s.log.insertedBy r = .committed ts) ∨ s.log.insertedBy r = .pending t.id) := by
      have hcheck := h.inMemory hres r hr
      refine ⟨hcheck, ?_⟩
      cases hstamp : s.log.insertedBy r with
      | checkpointed => exact absurd hstamp hcheck
      | committed ts => exact .inl ⟨ts, rfl⟩
      | pending id =>
        obtain ⟨t', ht', rfl⟩ := h.owned r hr id (.inl hstamp)
        by_cases hid : t'.id = t.id
        · rw [hid]
          exact .inr rfl
        · exact absurd hstamp (h.not_inserted ht' (hone t' ht' hid) hr)
    obtain ⟨info, num, hnum, happ, hexact⟩ := h.exact.append (h.pending_valid ht) hn hcap hins
    have hold (r : Nat) (hr : r < s.log.numRows) : (s.log.append t.id num).insertedBy r = s.log.insertedBy r ∧
          (s.log.append t.id num).deletedBy r = s.log.deletedBy r := ⟨if_pos hr, if_pos hr⟩
    have hnew (r : Nat) (hr : s.log.numRows ≤ r) : (s.log.append t.id num).insertedBy r = .pending t.id ∧
          (s.log.append t.id num).deletedBy r = none :=
      ⟨if_neg (not_lt.mpr hr), if_neg (not_lt.mpr hr)⟩
    refine ⟨_, by simp only [step, hact, happ]; rfl, ?_⟩
    refine h.push ht hexact ⟨fun r _ => ?_, fun r _ => ?_⟩ (fun _ r _ => ?_) ⟨?_, ?_⟩
      (fun t' ht' hid => ?_) (fun r _ id hid => ?_) fun _ => hone
    · by_cases hr : r < s.log.numRows
      · rw [(hold r hr).1]
        exact h.valid.inserted r hr
      · rw [(hnew r (by omega)).1]
        exact h.pending_valid ht
    · by_cases hr : r < s.log.numRows
      · rw [(hold r hr).2]
        exact h.valid.deleted r hr
      · rw [(hnew r (by omega)).2]
        simp
    · by_cases hr : r < s.log.numRows
      · rw [(hold r hr).1]
        exact h.inMemory hres r hr
      · simp [(hnew r (by omega)).1]
    · rw [h.exact.numRows]
      exact ⟨hnum, rfl, fun r hr _ => hnew r hr⟩
    · rw [h.exact.numRows]
      exact (h.undoes t ht).congr ⟨rfl, fun r hr => (hold r hr).1, fun r hr => (hold r hr).2⟩
    · refine (h.undoes t' ht').frame (.inr (hone t' ht' hid)) ?_ ?_ ?_ ?_ ?_ ?_
      · intro r hr hr'
        have hr' : s.log.numRows + num ≤ r := hr'
        omega
      · intro r hr _
        rw [(hnew r hr).1, (hnew r hr).2]
        simpa using Ne.symm hid
      · exact fun r hr => by rw [(hold r hr).1]
      · exact fun r hr id' hid' => by rwa [(hold r hr).1] at hid'
      · exact fun r hr => by rw [(hold r hr).2]
      · exact fun r hr _ hd => by rwa [(hold r hr).2]
    · by_cases hr : r < s.log.numRows
      · rw [(hold r hr).1, (hold r hr).2] at hid
        exact .inr ⟨hr, hid⟩
      · rw [(hnew r (by omega)).1, (hnew r (by omega)).2] at hid
        simp only [Stamp.pending.injEq, reduceCtorEq, or_false] at hid
        exact .inl hid.symm

theorem delete {row : Nat} (hok : s.Allowed (.delete id row)) :
    ∃ s', s.step (.delete id row) = some s' ∧ VersionInv s' := by
  cases hact : s.active? id with
  | none => exact ⟨s, by simp [step, hact], h⟩
  | some t =>
    obtain ⟨ht, rfl⟩ := active?_eq_some hact
    obtain ⟨hrow, hvis⟩ := hok
    rw [h.exact.numRows] at hrow
    have hval := h.pending_valid ht
    have hdel := h.exact.delete h.valid hrow hval
    obtain ⟨⟨group, result⟩, hgroup⟩ : ∃ x, x = s.group.delete t.id row := ⟨_, rfl⟩
    have hres : group.residencyState = s.group.residencyState := by
      have := congrArg (·.1.residencyState) hgroup
      exact this
    rw [show (Stamp.pending t.id).version = t.id from rfl, ← hgroup] at hdel
    rcases hdel with ⟨hnone, hresult, hexact⟩ | ⟨d, hd, hexact, hresult⟩
    · subst hresult
      have hne (r : Nat) (hr : r ≠ row) : (s.log.delete t.id row).deletedBy r = s.log.deletedBy r :=
        Function.update_of_ne hr _ _
      have hself : (s.log.delete t.id row).deletedBy row = some (.pending t.id) := Function.update_self _ _ _
      have howner (id' : Nat) (hins : s.log.insertedBy row = .pending id') : id' = t.id := by
        have hv := hvis t ht rfl
        rwa [hins] at hv
      refine ⟨_, by simp only [step, hact, ← hgroup]; rfl, ?_⟩
      refine h.push ht hexact ⟨h.valid.inserted, fun r hr d hd => ?_⟩
        (fun hmem => h.inMemory (hres ▸ hmem)) ⟨⟨hrow, hself, howner⟩, ?_⟩
        (fun t' ht' hid => ?_) (fun r hr id hid => ?_) fun hrec => hrec.elim
      · by_cases hr' : r = row
        · subst hr'
          rw [hself] at hd
          cases hd
          exact hval
        · rw [hne r hr'] at hd
          exact h.valid.deleted r hr d hd
      · refine (h.undoes t ht).congr ⟨rfl, fun _ _ => rfl, fun r _ => ?_⟩
        by_cases hr' : r = row
        · subst hr'
          rw [hnone]
          exact Function.update_self _ _ _
        · simp only [undo, setDeleted, Function.update_of_ne hr']
          exact hne r hr'
      · refine (h.undoes t' ht').frame (.inl rfl) ?_ ?_ (fun _ _ => Iff.rfl) (fun _ _ _ hid => hid) ?_ ?_
        · exact fun r hr hr' => absurd hr (not_lt.mpr hr')
        · exact fun r hr hr' => absurd hr' (not_lt.mpr hr)
        · intro r _
          by_cases hr' : r = row
          · subst hr'
            rw [hself, hnone]
            simpa using Ne.symm hid
          · rw [hne r hr']
        · intro r _ hins hd
          have hr' : r ≠ row := fun heq => hid (howner _ (heq ▸ hins))
          rwa [hne r hr']
      · by_cases hr' : r = row
        · subst hr'
          rcases hid with hins | hd
          · exact .inr ⟨hr, .inl hins⟩
          · rw [hself] at hd
            cases hd
            exact .inl rfl
        · rw [hne r hr'] at hid
          exact .inr ⟨hr, hid⟩
    · simp only at hresult hexact
      refine ⟨{ s with group := group }, ?_, hexact, h.valid, fun hmem => h.inMemory (hres ▸ hmem),
        h.lastTimestamp, h.ids, h.proper, h.undoes, h.owned, h.appender⟩
      simp only [step, hact, ← hgroup]
      by_cases heq : d.version = t.id
      · rw [if_pos heq] at hresult
        rw [hresult]
      · rw [if_neg heq] at hresult
        rw [hresult]

theorem commit {ts : Nat} (hok : s.Allowed (.commit id ts)) :
    ∃ s', s.step (.commit id ts) = some s' ∧ VersionInv s' := by
  cases hact : s.active? id with
  | none => exact ⟨s, by simp [step, hact], h⟩
  | some t =>
    obtain ⟨ht, rfl⟩ := active?_eq_some hact
    obtain ⟨group, hgroup, hshape, hexact⟩ := (h.undoes t ht).tracks.reverse.commitRecords
      (h.exact.mono (fun _ _ _ hok => .inl hok) fun _ _ hf => hf) h.valid (h.pending_valid ht).1 hok.2
    have hstamp {x : Stamp} {id' : Nat} : x.commit t.id ts = .pending id' ↔ x = .pending id' ∧ id' ≠ t.id := by
      by_cases hx : x = .pending t.id
      · simp [Stamp.commit, hx, eq_comm]
      · rw [Stamp.commit, if_neg hx]
        exact ⟨fun heq => ⟨heq, fun hid => hx (hid ▸ heq)⟩, And.left⟩
    have hdeleted {r id' : Nat} : (s.log.commit t.id ts).deletedBy r = some (.pending id') ↔
        s.log.deletedBy r = some (.pending id') ∧ id' ≠ t.id := by
      simp only [commit, Option.map_eq_some_iff, hstamp]
      constructor
      · rintro ⟨x, hx, rfl, hne⟩
        exact ⟨hx, hne⟩
      · rintro ⟨hx, hne⟩
        exact ⟨_, hx, rfl, hne⟩
    have hvalid {x : Stamp} (hx : x.Valid) : (x.commit t.id ts).Valid := by
      rw [Stamp.commit]
      split
      · exact hok.2
      · exact hx
    refine ⟨_, by simp only [step, hact, hgroup]; rfl, ?_⟩
    refine h.clear hexact ⟨fun r hr => hvalid (h.valid.inserted r hr), fun r hr d hd => ?_⟩
      (fun hmem r hr => ?_) hok.2 (fun t' ht' hid => ?_) (fun r hr id' hid' => ?_)
    · obtain ⟨x, hx, rfl⟩ := Option.map_eq_some_iff.mp hd
      exact hvalid (h.valid.deleted r hr x hx)
    · have hold := h.inMemory (hshape.1 ▸ hmem) r hr
      simp only [commit, Stamp.commit]
      split
      · simp
      · exact hold
    · refine (h.undoes t' ht').frame (.inl rfl) ?_ ?_ ?_ ?_ ?_ ?_
      · exact fun r hr hr' => absurd hr (not_lt.mpr hr')
      · exact fun r hr hr' => absurd hr' (not_lt.mpr hr)
      · exact fun r _ => hstamp.trans (and_iff_left hid)
      · exact fun r _ id' hid' => (hstamp.mp hid').1
      · exact fun r _ => hdeleted.trans (and_iff_left hid)
      · exact fun r _ _ hd => by simp [commit, hd]
    · rcases hid' with hins | hd
      · exact ⟨(hstamp.mp hins).2, hr, .inl (hstamp.mp hins).1⟩
      · exact ⟨(hdeleted.mp hd).2, hr, .inr (hdeleted.mp hd).1⟩

theorem rollback : ∃ s', s.step (.rollback id) = some s' ∧ VersionInv s' := by
  cases hact : s.active? id with
  | none => exact ⟨s, by simp [step, hact], h⟩
  | some t =>
    obtain ⟨ht, rfl⟩ := active?_eq_some hact
    obtain ⟨group, hgroup, hshape, hexact⟩ := (h.undoes t ht).rollbackRecords
      (h.exact.mono (fun _ _ _ hok => hok) fun _ _ hf => hf.elim) h.valid (h.pending_valid ht)
    have hle := s.log.rollback_numRows_le t.id
    have hdeleted {r : Nat} {x : Stamp} : (s.log.rollback t.id).deletedBy r = some x ↔
        s.log.deletedBy r = some x ∧ x ≠ .pending t.id := by
      simp only [rollback]
      split
      · next heq =>
        rw [heq]
        simp [eq_comm]
      · next hne => exact ⟨fun hx => ⟨hx, fun heq => hne (heq ▸ hx)⟩, And.left⟩
    refine ⟨_, by simp only [step, hact, hgroup]; rfl, ?_⟩
    refine h.clear hexact ⟨fun r hr => h.valid.inserted r (hr.trans_le hle), fun r hr d hd =>
      h.valid.deleted r (hr.trans_le hle) d (hdeleted.mp hd).1⟩
      (fun hmem r hr => h.inMemory (hshape.1 ▸ hmem) r (hr.trans_le hle)) h.lastTimestamp
      (fun t' ht' hid => ?_) (fun r hr id' hid' => ?_)
    · have hrows : (s.log.rollback t.id).numRows = s.log.numRows ∨ ∀ record ∈ t'.undoBuffer, ¬ record.IsInsert := by
        by_cases hx : ∃ record ∈ t'.undoBuffer, record.IsInsert
        · -- the rolled back transaction has no rows
          by_contra hne
          have hins := (h.undoes t ht).inserted_of_rollback (r := (s.log.rollback t.id).numRows) (by omega) le_rfl
          obtain ⟨a, n, hmem, -⟩ := (h.undoes t ht).tracks.inserted _ (by omega) hins
          exact hid (h.appender t' ht' t ht hx ⟨_, hmem, trivial⟩)
        · exact .inr fun record hrec hins => hx ⟨record, hrec, hins⟩
      refine (h.undoes t' ht').frame hrows ?_ ?_ (fun _ _ => Iff.rfl) (fun _ _ _ hid => hid) ?_ ?_
      · intro r hr hgone hd
        have hins := (h.undoes t ht).inserted_of_rollback hr hgone
        have htracks := (h.undoes t' ht').tracks
        exact hid ((htracks.pending _ (htracks.deleted r hr hd)).2.2 _ hins).symm
      · omega
      · intro r _
        rw [hdeleted]
        simpa using fun _ => hid
      · intro r _ _ hd
        simp [rollback, hd]
    · rcases hid' with hins | hd
      · refine ⟨fun heq => rollback_inserted_ne hr (heq ▸ hins), by omega, .inl hins⟩
      · obtain ⟨hd, hne⟩ := hdeleted.mp hd
        exact ⟨fun heq => hne (heq ▸ rfl), by omega, .inr hd⟩

theorem step {e : VersionEvent} (hok : s.Allowed e) : ∃ s', s.step e = some s' ∧ VersionInv s' := by
  cases e with
  | begin id => exact h.begin hok
  | append id n => exact h.append hok
  | delete id row => exact h.delete hok
  | commit id ts => exact h.commit hok
  | rollback id => exact h.rollback

theorem run {es : List VersionEvent} (hok : s.AlwaysAllowed es) : ∃ s', s.run es = some s' ∧ VersionInv s' := by
  induction es generalizing s with
  | nil => exact ⟨s, rfl, h⟩
  | cons e es ih =>
    obtain ⟨s₁, hs₁, h₁⟩ := h.step hok.1
    obtain ⟨s', hs', h'⟩ := ih h₁ (hok.2 s₁ hs₁)
    exact ⟨s', by rw [run, hs₁, Option.bind_some, hs'], h'⟩

end VersionInv

/-! ## The start of a run -/

theorem VersionInv.inMemory_start (capacity : Nat) {ts : Nat} (hts : ts < startTransactionID) :
    VersionInv (.inMemory capacity ts) where
  exact := ⟨rfl, fun v i hi => by simp [VersionSystem.inMemory, rowsInVector] at hi⟩
  valid := ⟨fun r hr => by simp [VersionSystem.inMemory] at hr, fun r hr => by simp [VersionSystem.inMemory] at hr⟩
  inMemory := fun _ r hr => by simp [VersionSystem.inMemory] at hr
  lastTimestamp := hts
  ids := .nil
  proper := by simp [VersionSystem.inMemory]
  undoes := by simp [VersionSystem.inMemory]
  owned := fun r hr => by simp [VersionSystem.inMemory] at hr
  appender := by simp [VersionSystem.inMemory]

/-- The log of a checkpointed group. -/
def checkpointedLog (numRows : Nat) (deleted : List Nat) : RowLog :=
  ⟨numRows, fun _ => .checkpointed, fun r => if r ∈ deleted then some .checkpointed else none⟩

theorem checkpointedLog_valid (numRows : Nat) (deleted : List Nat) : (checkpointedLog numRows deleted).Valid where
  inserted := fun _ _ => trivial
  deleted := fun r _ s hs => by
    simp only [checkpointedLog] at hs
    split at hs
    · cases hs
      trivial
    · cases hs

/-- The deletions that a checkpoint leaves. -/
theorem checkpointVersionInfo_exact {numRows : Nat} (before deleted : List Nat) (info : VersionInfo)
    (hlt : ∀ r ∈ deleted, r < numRows)
    (h : GroupExact (checkpointedLog numRows before) ⟨.onDisk, numRows, numRows, some info⟩) :
    GroupExact (checkpointedLog numRows (deleted.reverse ++ before)) ⟨.onDisk, numRows, numRows,
      some (deleted.foldl (fun info row => (info.delete 0 row).1) info)⟩ := by
  induction deleted generalizing before info with
  | nil => exact h
  | cons row deleted ih =>
    have hrow : row < numRows := hlt row mem_cons_self
    have hstep : GroupExact (checkpointedLog numRows (row :: before))
        ⟨.onDisk, numRows, numRows, some (info.delete 0 row).1⟩ := by
      have hcongr {log : RowLog} (hnum : log.numRows = numRows) (hins : log.insertedBy = fun _ => .checkpointed)
          (hdel : ∀ r, log.deletedBy r = (checkpointedLog numRows (row :: before)).deletedBy r) :
          log.SameRows (checkpointedLog numRows (row :: before)) :=
        ⟨hnum.symm, fun r _ => by rw [hins]; rfl, fun r _ => (hdel r).symm⟩
      rcases h.delete (checkpointedLog_valid _ _) hrow (s := .checkpointed) trivial with
        ⟨-, -, hexact⟩ | ⟨d, hd, hexact, -⟩
      · refine hexact.congr (hcongr rfl rfl fun r => ?_)
        by_cases hr : r = row <;> simp [setDeleted, checkpointedLog, hr]
      · refine hexact.congr (hcongr rfl rfl fun r => ?_)
        have hmem : row ∈ before := by
          by_contra hmem
          simp [checkpointedLog, hmem] at hd
        by_cases hr : r = row
        · simp [checkpointedLog, hr, hmem]
        · simp [checkpointedLog, hr]
    have h' := ih (row :: before) _ (fun r hr => hlt r (mem_cons_of_mem _ hr)) hstep
    rwa [reverse_cons, append_assoc]

theorem VersionInv.onDisk_start {numRows ts : Nat} {deleted : List Nat}
    (hlt : ∀ r ∈ deleted, r < numRows) (hts : ts < startTransactionID) :
    VersionInv (.onDisk numRows deleted ts) where
  exact := by
    have h := checkpointVersionInfo_exact [] deleted .new hlt ⟨rfl, fun v i _ => ⟨rfl, by simp [checkpointedLog]⟩⟩
    refine h.congr ⟨rfl, fun _ _ => rfl, fun r _ => ?_⟩
    simp [onDisk, checkpointedLog]
  valid := checkpointedLog_valid numRows deleted
  inMemory := fun h => by simp [onDisk] at h
  lastTimestamp := hts
  ids := .nil
  proper := by simp [onDisk]
  undoes := by simp [onDisk]
  owned := fun r _ id hid => by rcases hid with hid | hid <;> simp [onDisk] at hid
  appender := by simp [onDisk]

/-- A group without active transactions: a new one in memory, or a checkpointed one. -/
inductive VersionSystem.Starts : VersionSystem → Prop
  | inMemory (capacity ts : Nat) (hts : ts < startTransactionID) : Starts (.inMemory capacity ts)
  | onDisk (numRows : Nat) (deleted : List Nat) (ts : Nat) (hlt : ∀ r ∈ deleted, r < numRows)
      (hts : ts < startTransactionID) : Starts (.onDisk numRows deleted ts)

theorem VersionSystem.Starts.inv {s : VersionSystem} (h : s.Starts) : VersionInv s := by
  cases h with
  | inMemory capacity ts hts => exact .inMemory_start capacity hts
  | onDisk numRows deleted ts hlt hts => exact .onDisk_start hlt hts

/-! ## What transactions see -/

/-- The group shows each transaction its snapshot, and `delete_` finds the deletions of others. -/
structure VersionSystem.ShowsSnapshots (s : VersionSystem) : Prop where
  active : ∀ t ∈ s.activeTransactions, t.Proper
  selected : ∀ t : Transaction, t.Proper → ∀ r < s.group.numRows,
    s.group.isSelected t r = some (decide (s.log.Visible t r))
  deleted : ∀ t : Transaction, t.Proper → ∀ r < s.group.numRows,
    (s.group.delete t.id r).2 = .alreadyDeleted ↔ s.log.deletedBy r = some (.pending t.id)
  conflict : ∀ t : Transaction, t.Proper → ∀ r < s.group.numRows,
    (s.group.delete t.id r).2 = .conflict deleteConflict ↔
      ∃ d, s.log.deletedBy r = some d ∧ d ≠ .pending t.id
  unchanged : ∀ t : Transaction, t.Proper → ∀ r < s.group.numRows,
    (s.group.delete t.id r).2 = .conflict deleteConflict →
      (s.group.delete t.id r).1.numRows = s.group.numRows ∧
      ∀ t' : Transaction, t'.Proper → ∀ r' < s.group.numRows,
        (s.group.delete t.id r).1.isSelected t' r' = s.group.isSelected t' r'

theorem VersionInv.delete_result {s : VersionSystem} (h : VersionInv s) {t : Transaction}
    (ht : t.Proper) {r : Nat} (hr : r < s.log.numRows) :
    (s.log.deletedBy r = none ∧ (s.group.delete t.id r).2 = .deleted) ∨
    ∃ d, s.log.deletedBy r = some d ∧ GroupExact s.log (s.group.delete t.id r).1 ∧ (s.group.delete t.id r).2 =
        if d = .pending t.id then .alreadyDeleted else .conflict deleteConflict := by
  have hval : (Stamp.pending t.id).Valid := ⟨ht.id_ge, ht.id_lt⟩
  rcases h.exact.delete h.valid hr hval with ⟨hnone, hresult, -⟩ | ⟨d, hd, hexact, hresult⟩
  · exact .inl ⟨hnone, hresult⟩
  · refine .inr ⟨d, hd, hexact, hresult.trans (if_congr ⟨fun heq => ?_, fun heq => ?_⟩ rfl rfl)⟩
    · exact VectorVersionInfo.Stamp.eq_pending (h.valid.deleted r hr d hd) ht.id_ge heq
    · rw [heq]

theorem VersionInv.showsSnapshots {s : VersionSystem} (h : VersionInv s) : s.ShowsSnapshots where
  active := h.proper
  selected := fun t ht r hr =>
    h.exact.isSelected h.valid (h.exact.numRows ▸ hr) ht.id_ge ht.id_lt ht.startTS_lt
  deleted := fun t ht r hr => by
    rcases h.delete_result ht (h.exact.numRows ▸ hr) with ⟨hnone, hresult⟩ | ⟨d, hd, -, hresult⟩
    · simp [hresult, hnone]
    · by_cases heq : d = .pending t.id <;> simp [hresult, hd]
  conflict := fun t ht r hr => by
    rcases h.delete_result ht (h.exact.numRows ▸ hr) with ⟨hnone, hresult⟩ | ⟨d, hd, -, hresult⟩
    · simp [hresult, hnone]
    · by_cases heq : d = .pending t.id <;> simp [hresult, hd]
  unchanged := fun t ht r hr hconflict => by
    refine ⟨rfl, fun t' ht' r' hr' => ?_⟩
    rw [h.exact.numRows] at hr hr'
    rcases h.delete_result ht hr with ⟨-, hresult⟩ | ⟨d, -, hexact, -⟩
    · rw [hresult] at hconflict
      cases hconflict
    · rw [hexact.isSelected h.valid hr' ht'.id_ge ht'.id_lt ht'.startTS_lt,
        h.exact.isSelected h.valid hr' ht'.id_ge ht'.id_lt ht'.startTS_lt]

/-- Snapshot visibility of row versions: in every run of allowed events, the group shows each
transaction the rows that were inserted before the last checkpoint, by the transaction itself or by
one that has committed up to its start, and that were not deleted so. -/
theorem VersionSystem.run_showsSnapshots {s : VersionSystem} (hstart : s.Starts)
    {es : List VersionEvent} (hok : s.AlwaysAllowed es) :
    ∃ s', s.run es = some s' ∧ s'.ShowsSnapshots := by
  obtain ⟨s', hs', h'⟩ := hstart.inv.run hok
  exact ⟨s', hs', h'.showsSnapshots⟩

/-- One transaction appends rows and commits. Then one deletes a row that another one tries to
delete. -/
def deleteConflictRun : List VersionEvent :=
  let a := startTransactionID
  [.begin a, .append a 3, .commit a 1, .begin (a + 1), .begin (a + 2), .delete (a + 1) 0,
    .delete (a + 2) 0, .append (a + 2) 2, .delete (a + 2) 4, .commit (a + 1) 2]

theorem deleteConflictRun_showsSnapshots :
    (inMemory chunkedNodeGroupCapacity 0).AlwaysAllowed deleteConflictRun ∧
    ∃ s', (inMemory chunkedNodeGroupCapacity 0).run deleteConflictRun = some s' ∧
      s'.ShowsSnapshots :=
  ⟨by decide +kernel, run_showsSnapshots (.inMemory _ _ (by decide)) (by decide +kernel)⟩

end CycleJoin
