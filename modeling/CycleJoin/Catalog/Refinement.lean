import CycleJoin.Catalog.Lookups

/-!
# Lookups show the snapshot of a transaction

The chains of versions stand for a history of the catalog (`Refines`) in every run of write
transactions that come one after another (`Refines.run`). So lookups by name show the snapshot of a
transaction, and lookups by OID do if and only if no name that the transaction sees has a newest
version with another OID (`CatalogSystem.run_lookups`).
-/

namespace CycleJoin

open CatalogEntries Option CatalogEntry Function CatalogSystem CatalogHistory List

variable {N D : Type} [DecidableEq N]

/-- The chains stand for a history. -/
structure Refines (s : CatalogSystem N D) (h : CatalogHistory N D) : Prop where
  nextOID : h.nextOID = s.nextOID
  lastTimestamp : h.lastTimestamp = s.lastTimestamp
  writing : h.writing = s.writer.isSome
  lastTransactionID : startTransactionID ≤ s.lastTransactionID
  writer : ∀ {t}, s.writer = some t → startTransactionID ≤ t.id ∧ t.startTS = s.lastTimestamp
  bottom : ∀ name, s.entries name ≠ [] → ∃ e ∈ s.entries name, e.timestamp = 0
  stamped : ∀ name, ∀ e ∈ s.entries name,
    e.timestamp ≤ s.lastTimestamp ∨ ∃ t, s.writer = some t ∧ e.timestamp = t.id
  current : ∀ name, newestShown (s.entries name) = h.current name
  snapshot : ∀ ts ≤ s.lastTimestamp, ∀ name, shownAt ts (s.entries name) = h.snapshot ts name
  undo : ∀ {t}, s.writer = some t → UndoRecords t.id s.entries s.undoBuffer
  idle : s.writer = none → s.undoBuffer = []

namespace Refines

variable {s : CatalogSystem N D} {h : CatalogHistory N D} {t : Transaction} {name : N}
  {e : CatalogEntry D}

/-! ## What the write transaction sees -/

section
variable (hr : Refines s h)
include hr

theorem traverse_writer (hw : s.writer = some t) (name : N) : traverse t (s.entries name) = s.entries name := by
  refine traverse_eq_self fun e he => ?_
  obtain hts | ⟨t', ht', hts⟩ := hr.stamped name e he
  · exact .inr ((hr.writer hw).2 ▸ hts)
  · rw [hw, some.injEq] at ht'
    exact .inl (ht' ▸ hts)

theorem containsEntryNoLock_writer (hw : s.writer = some t) (name : N) :
    s.entries.containsEntryNoLock t name = (h.current name).isSome := by
  rw [containsEntryNoLock, hr.traverse_writer hw, ← hr.current name]
  cases s.entries name with
  | nil => rfl
  | cons e prev => cases hc : e.content <;> simp [newestShown, shown, isDeleted]

theorem getEntryNoLock_writer (hw : s.writer = some t) (name : N) :
    s.entries.getEntryNoLock t name = match h.current name with
      | none => .error (.doesNotExist name)
      | some entry => .ok (entry, s.entries.newest name) := by
  rw [getEntryNoLock, hr.traverse_writer hw, newest, ← hr.current name]
  cases s.entries name with
  | nil => rfl
  | cons e prev => cases hc : e.content <;> simp [newestShown, shown, hc]

theorem ne_nil_of_current {entry : VisibleEntry D} (hc : h.current name = some entry) : s.entries name ≠ [] := by
  intro hnil
  have := hr.current name
  simp [hnil, newestShown, hc] at this

/-! ## Changes -/

theorem push (hlt : s.lastTimestamp < startTransactionID) (hw : s.writer = some t)
    (hname : s.entries name ≠ []) (he : e.timestamp = t.id) :
    Refines { s with
        entries := s.entries.emplaceNoLock name e
        undoBuffer := s.undoBuffer ++ [s.entries.newest name] }
      { h with current := update h.current name e.shown } := { hr with
  bottom := fun name' hne => by
    by_cases hn : name' = name
    · subst hn
      obtain ⟨e', he', h0⟩ := hr.bottom name' hname
      exact ⟨e', by simp [he'], h0⟩
    · simpa [emplaceNoLock_of_ne hn] using hr.bottom name' (by simpa [emplaceNoLock_of_ne hn] using hne)
  stamped := fun name' e' he' => by
    by_cases hn : name' = name
    · subst hn
      obtain rfl | he' : e' = e ∨ e' ∈ s.entries name' := by simpa using he'
      · exact .inr ⟨t, hw, he⟩
      · exact hr.stamped name' e' he'
    · exact hr.stamped name' e' (by simpa [emplaceNoLock_of_ne hn] using he')
  current := fun name' => by
    by_cases hn : name' = name
    · subst hn; simp [newestShown]
    · simpa [emplaceNoLock_of_ne hn, update_of_ne hn] using hr.current name'
  snapshot := fun ts hts name' => by
    by_cases hn : name' = name
    · subst hn
      have hid := (hr.writer hw).1
      have hts : ts ≤ s.lastTimestamp := hts
      simp only [emplaceNoLock_self]
      rw [shownAt_cons_of_lt (by omega)]
      exact hr.snapshot ts hts name'
    · simp only [emplaceNoLock_of_ne hn]
      exact hr.snapshot ts hts name'
  undo := fun hw' => by
    obtain rfl : t = _ := Option.mem_unique hw hw'
    exact (hr.undo hw).push hname he
  idle := fun hnone => by simp [hw] at hnone }

theorem emplace_dummy (hname : s.entries name = []) (oid : Nat) :
    Refines { s with entries := s.entries.emplaceNoLock name (.dummy oid) } h := { hr with
  bottom := fun name' hne => by
    by_cases hn : name' = name
    · subst hn; exact ⟨.dummy oid, by simp, rfl⟩
    · simpa [emplaceNoLock_of_ne hn] using hr.bottom name' (by simpa [emplaceNoLock_of_ne hn] using hne)
  stamped := fun name' e' he' => by
    by_cases hn : name' = name
    · subst hn
      obtain rfl : e' = .dummy oid := by simpa [hname] using he'
      exact .inl (Nat.zero_le _)
    · exact hr.stamped name' e' (by simpa [emplaceNoLock_of_ne hn] using he')
  current := fun name' => by
    have hc := hr.current name'
    by_cases hn : name' = name
    · subst hn
      rw [← hc]
      simp [newestShown, hname, dummy, shown]
    · simpa [emplaceNoLock_of_ne hn] using hc
  snapshot := fun ts hts name' => by
    rw [← hr.snapshot ts hts name']
    by_cases hn : name' = name
    · subst hn
      simp [shownAt, hname, dummy, shown]
    · simp [emplaceNoLock_of_ne hn]
  undo := fun {t} hw => by
    have hid : (0 : Nat) ≠ t.id := by
      have : startTransactionID = 2 ^ 63 := rfl
      have := (hr.writer hw).1
      omega
    exact (hr.undo hw).emplace_dummy hname hid }

theorem takeOID : Refines { s with nextOID := s.nextOID + 1 } { h with nextOID := h.nextOID + 1 } :=
  { hr with nextOID := congrArg (· + 1) hr.nextOID }

end

section
variable (hr : Refines s h) (hlt : s.lastTimestamp < startTransactionID) (hw : s.writer = some t)
include hr hlt hw

/-- A created entry on a free name. There is no conflict: the newest version is a tombstone or dummy
entry that the write transaction sees. -/
theorem createEntryNoLock_writer (hfree : h.current name = none) (oid : Nat) (content : D) :
    ∃ entries pointer, s.entries.createEntryNoLock t name oid content = .ok (entries, pointer) ∧
      Refines { s with entries := entries, undoBuffer := s.undoBuffer ++ [pointer] }
        { h with current := update h.current name (some ⟨oid, content⟩) } := by
  have hno : s.entries.containsEntryNoLock t name = false := by
    rw [hr.containsEntryNoLock_writer hw, hfree, isSome_none]
  cases hchain : s.entries name with
  | nil =>
    refine ⟨_, _, by simp [createEntryNoLock, hno, hchain]; exact ⟨rfl, rfl⟩, ?_⟩
    exact (hr.emplace_dummy hchain oid).push hlt hw (by simp) rfl
  | cons existing prev =>
    have hconflict : checkWWConflict t existing = false := by
      obtain hts | ⟨t', ht', hts⟩ := hr.stamped name existing (by simp [hchain])
      · have := (hr.writer hw).2
        simp only [checkWWConflict, Bool.or_eq_false_iff, Bool.and_eq_false_iff, decide_eq_false_iff_not]
        omega
      · obtain rfl : t = t' := Option.mem_unique hw ht'
        have := (hr.writer hw).1
        simp only [checkWWConflict, Bool.or_eq_false_iff, Bool.and_eq_false_iff, decide_eq_false_iff_not,
          bne_eq_false_iff_eq]
        omega
    have hdel : existing.isDeleted = true := by
      have := hr.current name
      rw [hchain, hfree] at this
      simpa [newestShown, shown, isDeleted] using this
    refine ⟨_, _, by simp [createEntryNoLock, hno, hchain, hconflict, hdel]; exact ⟨rfl, rfl⟩, ?_⟩
    exact hr.push hlt hw (by simp [hchain]) rfl

theorem createEntry (content : D) : Refines (s.createEntry t name content) (h.create name content) := by
  cases hc : h.current name with
  | none =>
    obtain ⟨entries, pointer, hok, hr'⟩ := hr.createEntryNoLock_writer hlt hw hc s.nextOID content
    have hr'' := hr'.takeOID
    rw [CatalogSystem.createEntry, hok, create, if_pos hc, hr.nextOID]
    rwa [hr.nextOID] at hr''
  | some entry =>
    have hyes : s.entries.containsEntryNoLock t name = true := by
      rw [hr.containsEntryNoLock_writer hw, hc, isSome_some]
    have hr' := hr.takeOID
    rw [create, if_neg (by simp [hc])]
    simpa [CatalogSystem.createEntry, createEntryNoLock, hyes] using hr'

theorem dropTableEntry (name : N) : Refines (s.dropTableEntry t name) (h.drop name) := by
  rw [CatalogSystem.dropTableEntry, hr.getEntryNoLock_writer hw]
  cases hc : h.current name with
  | none =>
    have : h.drop name = h := by rw [CatalogHistory.drop, ← hc, update_eq_self]
    rwa [this]
  | some entry =>
    have hyes : s.entries.containsEntryNoLock t name = true := by
      rw [hr.containsEntryNoLock_writer hw, hc, isSome_some]
    simp only [dropEntryNoLock, hyes]
    exact hr.push hlt hw (hr.ne_nil_of_current hc) rfl

/-- A rename finds its new name free, so that it is not refused after the old name is dropped. -/
theorem alterTable (info : BoundAlterInfo N D) : Refines (s.alterTable t info) (h.alter info) := by
  obtain ⟨name, alter, newName⟩ := info
  cases hc : h.current name with
  | none =>
    have hold : h.alter ⟨name, alter, newName⟩ = h := by simp [CatalogHistory.alter, hc]
    have hnew : s.alterTable t ⟨name, alter, newName⟩ = s := by
      simp [CatalogSystem.alterTable, alterTableEntry, hr.getEntryNoLock_writer hw, hc]
    rwa [hold, hnew]
  | some entry =>
    have hpush := fun content =>
      hr.push hlt hw (hr.ne_nil_of_current hc) (e := ⟨entry.oid, t.id, content⟩) rfl
    cases newName with
    | none =>
      simp only [CatalogSystem.alterTable, alterTableEntry, hr.getEntryNoLock_writer hw, hc, CatalogHistory.alter]
      exact hpush (some (alter entry.content))
    | some newName =>
      have hcontains := hr.containsEntryNoLock_writer hw newName
      by_cases hfree : h.current newName = none
      · have hne : newName ≠ name := by
          rintro rfl
          simp [hc] at hfree
        have hyes : s.entries.containsEntryNoLock t name = true := by
          rw [hr.containsEntryNoLock_writer hw, hc, isSome_some]
        have hfree' : update h.current name none newName = none := (update_of_ne hne ..).trans hfree
        obtain ⟨entries, pointer, hok, hr'⟩ :=
          (hpush none).createEntryNoLock_writer hlt hw hfree' entry.oid (alter entry.content)
        have hdrop : s.entries.dropEntryNoLock t name entry.oid =
            .ok (s.entries.emplaceNoLock name ⟨entry.oid, t.id, none⟩, s.entries.newest name) :=
          if_pos hyes
        simp only [CatalogSystem.alterTable, renameConflicts, alterTableEntry,
          hr.getEntryNoLock_writer hw, hc, CatalogHistory.alter,
          any_some, hcontains, hfree,
          hdrop, hok]
        simp only [append_assoc] at hr'
        exact hr'
      · have hsome : (h.current newName).isSome = true := isSome_iff_ne_none.mpr hfree
        have hold : h.alter ⟨name, alter, some newName⟩ = h := by
          simp [CatalogHistory.alter, hc, hfree]
        have hnew : s.alterTable t ⟨name, alter, some newName⟩ = s := by
          simp [CatalogSystem.alterTable, renameConflicts, hcontains, hsome]
        rwa [hold, hnew]

end

/-! ## Transactions -/

theorem beginRead (hr : Refines s h) : Refines { s with lastTransactionID := s.lastTransactionID + 1 } h :=
  { hr with lastTransactionID := Nat.le_succ_of_le hr.lastTransactionID }

theorem beginWrite (hr : Refines s h) (hlt : s.lastTimestamp < startTransactionID) (hw : s.writer = none) :
    Refines { s with
        lastTransactionID := s.lastTransactionID + 1
        writer := some ⟨s.lastTransactionID + 1, s.lastTimestamp⟩ }
      { h with writing := true } := { hr with
  writing := rfl
  lastTransactionID := Nat.le_succ_of_le hr.lastTransactionID
  writer := by
    rintro _ ⟨⟩
    exact ⟨Nat.le_succ_of_le hr.lastTransactionID, rfl⟩
  stamped := fun name e he => by
    obtain hts | ⟨t, ht, -⟩ := hr.stamped name e he
    · exact .inl hts
    · simp [hw] at ht
  undo := by
    rintro _ ⟨⟩
    rw [hr.idle hw]
    refine UndoRecords.nil fun name e he => ?_
    obtain hts | ⟨t, ht, -⟩ := hr.stamped name e he
    · have := hr.lastTransactionID
      simp only
      omega
    · simp [hw] at ht
  idle := by simp }

omit [DecidableEq N] in
theorem snapshot_commit (h : CatalogHistory N D) {ts c : Nat} : snapshotOf ((c, h.current) :: h.committed) ts =
      if c ≤ ts then h.current else h.snapshot ts := by
  by_cases hc : c ≤ ts <;> simp [snapshotOf, CatalogHistory.snapshot, hc]

section
variable (hr : Refines s h) (hlt : s.lastTimestamp < startTransactionID) (hw : s.writer = some t)
include hr hlt hw

theorem commit : Refines s.commit { h with
        committed := (h.lastTimestamp + 1, h.current) :: h.committed
        lastTimestamp := h.lastTimestamp + 1
        writing := false } := by
  have hentries : s.commit.entries = fun name =>
      (s.entries name).map (retime t.id (s.lastTimestamp + 1)) :=
    funext fun name => (hr.undo hw).commits _ name
  have hle : ∀ name, ∀ e ∈ s.commit.entries name, e.timestamp ≤ s.lastTimestamp + 1 := by
    intro name e he
    rw [hentries] at he
    obtain ⟨e, hmem, rfl⟩ := mem_map.mp he
    rw [retime]
    split
    · exact le_rfl
    · obtain hts | ⟨t', ht', hts⟩ := hr.stamped name e hmem
      · omega
      · simp_all
  have hid := (hr.writer hw).1
  constructor
  case nextOID => exact hr.nextOID
  case lastTimestamp => exact congrArg (· + 1) hr.lastTimestamp
  case writing => rfl
  case lastTransactionID => exact hr.lastTransactionID
  case writer => simp [CatalogSystem.commit]
  case bottom =>
    intro name hne
    have hne : s.entries name ≠ [] := by simpa [hentries] using hne
    obtain ⟨e, he, h0⟩ := hr.bottom name hne
    refine ⟨e, ?_, h0⟩
    have hkeep : retime t.id (s.lastTimestamp + 1) e = e := if_neg (by omega)
    rw [hentries]
    exact mem_map.mpr ⟨e, he, hkeep⟩
  case stamped => exact fun name e he => .inl (hle name e he)
  case current =>
    intro name
    rw [hentries, newestShown_map_retime]
    exact hr.current name
  case snapshot =>
    intro ts hts name
    rw [CatalogHistory.snapshot, snapshot_commit, hr.lastTimestamp]
    by_cases hc : s.lastTimestamp + 1 ≤ ts
    · rw [if_pos hc, shownAt_eq_newestShown fun e he => (hle name e he).trans hc, hentries,
        newestShown_map_retime, hr.current]
    · rw [if_neg hc, hentries, shownAt_map_retime (by omega) (by omega)]
      exact hr.snapshot ts (by omega) name
  case undo => simp [CatalogSystem.commit]
  case idle => exact fun _ => rfl

theorem rollback : Refines s.rollback
      { h with current := h.snapshot h.lastTimestamp, writing := false } := by
  have hentries : s.rollback.entries = fun name =>
      (s.entries name).filter (·.timestamp ≠ t.id) :=
    funext fun name => (hr.undo hw).rollbacks name
  have hid := (hr.writer hw).1
  have hle : ∀ name, ∀ e ∈ s.rollback.entries name, e.timestamp ≤ s.lastTimestamp := by
    intro name e he
    rw [hentries] at he
    obtain ⟨he, hne⟩ := mem_filter.mp he
    obtain hts | ⟨t', ht', hts⟩ := hr.stamped name e he
    · exact hts
    · simp_all
  have hsnapshot : ∀ ts ≤ s.lastTimestamp, ∀ name, shownAt ts (s.rollback.entries name) = h.snapshot ts name := by
    intro ts hts name
    rw [hentries, shownAt_filter (by omega)]
    exact hr.snapshot ts hts name
  constructor
  case nextOID => exact hr.nextOID
  case lastTimestamp => exact hr.lastTimestamp
  case writing => rfl
  case lastTransactionID => exact hr.lastTransactionID
  case writer => simp [CatalogSystem.rollback]
  case bottom =>
    intro name hne
    have hne' : s.entries name ≠ [] := by
      intro hnil
      simp [hentries, hnil] at hne
    obtain ⟨e, he, h0⟩ := hr.bottom name hne'
    refine ⟨e, ?_, h0⟩
    have hkeep : e.timestamp ≠ t.id := by omega
    rw [hentries]
    exact mem_filter.mpr ⟨he, by simpa using hkeep⟩
  case stamped => exact fun name e he => .inl (hle name e he)
  case current =>
    intro name
    rw [← shownAt_eq_newestShown (hle name), hr.lastTimestamp]
    exact hsnapshot _ le_rfl name
  case snapshot => exact hsnapshot
  case undo => simp [CatalogSystem.rollback]
  case idle => exact fun _ => rfl

end

/-! ## Runs -/

theorem ofWriter (hr : Refines s h) {change : Transaction → CatalogSystem N D} {h' : CatalogHistory N D}
    (hchange : ∀ {t}, s.writer = some t → Refines (change t) h') :
    Refines (s.writer.elim s change) (if h.writing then h' else h) := by
  rw [hr.writing]
  cases hw : s.writer with
  | none => exact hr
  | some t => exact hchange hw

theorem step (hr : Refines s h) (hlt : s.lastTimestamp < startTransactionID)
    (command : CatalogCommand N D) : Refines (s.step command) (h.step command) := by
  cases command with
  | beginRead => exact hr.beginRead
  | takeOID => exact hr.takeOID
  | beginWrite =>
    have hwriting := hr.writing
    cases hw : s.writer with
    | none => simpa [CatalogSystem.step, CatalogHistory.step, hw] using hr.beginWrite hlt hw
    | some t =>
      have hsame : { h with writing := true } = h := by
        cases h
        simp_all
      simpa [CatalogSystem.step, CatalogHistory.step, hw, hsame] using hr
  | create name content => exact hr.ofWriter fun hw => hr.createEntry hlt hw content
  | drop name => exact hr.ofWriter fun hw => hr.dropTableEntry hlt hw name
  | alter info => exact hr.ofWriter fun hw => hr.alterTable hlt hw info
  | commit => exact hr.ofWriter fun hw => hr.commit hlt hw
  | rollback => exact hr.ofWriter fun hw => hr.rollback hlt hw

theorem load (stored : StoredCatalog N D) : Refines (CatalogSystem.load stored) (CatalogHistory.load stored) where
  nextOID := rfl
  lastTimestamp := rfl
  writing := rfl
  lastTransactionID := le_rfl
  writer := by simp [CatalogSystem.load]
  bottom := fun name hne => by cases hs : stored.entries name <;> simp_all [CatalogSystem.load]
  stamped := fun name e he => by cases hs : stored.entries name <;> simp_all [CatalogSystem.load]
  current := fun name => by
    cases hs : stored.entries name <;> simp [CatalogSystem.load, CatalogHistory.load, newestShown, shown, hs]
  snapshot := fun ts hts name => by
    cases hs : stored.entries name <;>
      simp [CatalogSystem.load, CatalogHistory.load, CatalogHistory.snapshot, snapshotOf, shownAt, shown, hs]
  undo := by simp [CatalogSystem.load]
  idle := fun _ => rfl

theorem lastTimestamp_le_step (s : CatalogSystem N D) (command : CatalogCommand N D) :
    s.lastTimestamp ≤ (s.step command).lastTimestamp := by
  have hwriter {change : Transaction → CatalogSystem N D} (h : ∀ t, s.lastTimestamp ≤ (change t).lastTimestamp) :
      s.lastTimestamp ≤ (s.writer.elim s change).lastTimestamp := by
    cases s.writer with
    | none => exact le_rfl
    | some t => exact h t
  cases command with
  | beginRead => exact le_rfl
  | takeOID => exact le_rfl
  | beginWrite => cases hw : s.writer <;> simp [CatalogSystem.step, hw]
  | create name content =>
    refine hwriter fun t => ?_
    unfold CatalogSystem.createEntry
    split <;> exact le_rfl
  | drop name =>
    refine hwriter fun t => ?_
    unfold CatalogSystem.dropTableEntry
    split
    · exact le_rfl
    · split <;> exact le_rfl
  | alter info =>
    refine hwriter fun t => ?_
    unfold CatalogSystem.alterTable
    split
    · exact le_rfl
    · split <;> exact le_rfl
  | commit => exact hwriter fun _ => Nat.le_succ _
  | rollback => exact hwriter fun _ => le_rfl

theorem run (hr : Refines s h) (commands : List (CatalogCommand N D))
    (hlt : (s.run commands).lastTimestamp < startTransactionID) :
    Refines (s.run commands) (h.run commands) := by
  induction commands generalizing s h with
  | nil => exact hr
  | cons command commands ih =>
    have hmono : ∀ (commands : List (CatalogCommand N D)) (s : CatalogSystem N D),
        s.lastTimestamp ≤ (s.run commands).lastTimestamp := by
      intro commands
      induction commands with
      | nil => exact fun s => le_rfl
      | cons command commands ih =>
        exact fun s => (lastTimestamp_le_step s command).trans (ih (s.step command))
    exact ih (hr.step ((hmono (command :: commands) s).trans_lt hlt) command) hlt

end Refines

/-! ## OIDs -/

namespace DistinctOIDs

variable {bound : Nat} {view : N → Option (VisibleEntry D)} {name : N} {entry : VisibleEntry D}

theorem update_none (h : DistinctOIDs bound view) : DistinctOIDs bound (update view name none) := by
  have hold : ∀ {name' entry}, update view name none name' = some entry → view name' = some entry := by
    intro name' entry hn
    by_cases heq : name' = name
    · subst heq; simp at hn
    · rwa [update_of_ne heq] at hn
  exact ⟨fun hn => h.lt (hold hn), fun hn hn' => h.inj (hold hn) (hold hn')⟩

theorem update_some (h : DistinctOIDs bound view) (hlt : entry.oid < bound)
    (hfresh : ∀ {name' entry'}, view name' = some entry' → entry'.oid = entry.oid → name' = name) :
    DistinctOIDs bound (update view name (some entry)) := by
  have hcases : ∀ {name' entry'}, update view name (some entry) name' = some entry' →
      (name' = name ∧ entry' = entry) ∨ (name' ≠ name ∧ view name' = some entry') := by
    intro name' entry' hn
    by_cases heq : name' = name
    · subst heq
      rw [update_self, some.injEq] at hn
      exact .inl ⟨rfl, hn.symm⟩
    · rw [update_of_ne heq] at hn
      exact .inr ⟨heq, hn⟩
  constructor
  case lt =>
    intro name' entry' hn
    obtain ⟨-, rfl⟩ | ⟨-, hn⟩ := hcases hn
    · exact hlt
    · exact h.lt hn
  case inj =>
    intro name₁ name₂ entry₁ entry₂ h₁ h₂ hoid
    obtain ⟨hn₁, he₁⟩ | ⟨-, hv₁⟩ := hcases h₁ <;> obtain ⟨hn₂, he₂⟩ | ⟨-, hv₂⟩ := hcases h₂
    · exact hn₁.trans hn₂.symm
    · exact hn₁.trans (hfresh hv₂ (hoid.symm.trans (congrArg _ he₁))).symm
    · exact (hfresh hv₁ (hoid.trans (congrArg _ he₂))).trans hn₂.symm
    · exact h.inj hv₁ hv₂ hoid

end DistinctOIDs

namespace CatalogHistory

variable {h : CatalogHistory N D}

/-- OIDs are distinct in all versions of the catalog. -/
structure OIDInv (h : CatalogHistory N D) : Prop where
  current : DistinctOIDs h.nextOID h.current
  committed : ∀ version ∈ h.committed, DistinctOIDs h.nextOID version.2

omit [DecidableEq N] in
theorem OIDInv.snapshot (hi : OIDInv h) (ts : Nat) : DistinctOIDs h.nextOID (h.snapshot ts) := by
  rw [CatalogHistory.snapshot, snapshotOf]
  cases hf : h.committed.find? (·.1 ≤ ts) with
  | none => exact ⟨by simp, by simp⟩
  | some version => exact hi.committed version (mem_of_find?_eq_some hf)

theorem OIDInv.create (hi : OIDInv h) (name : N) (content : D) : OIDInv (h.create name content) where
  current := by
    have hmono := hi.current.mono (Nat.le_succ h.nextOID)
    simp only [CatalogHistory.create]
    split
    · refine hmono.update_some (Nat.lt_succ_self _) fun {name' entry'} hn hoid => ?_
      have := hi.current.lt hn
      simp only at hoid
      omega
    · exact hmono
  committed := fun version hv => (hi.committed version hv).mono (Nat.le_succ _)

theorem OIDInv.alter (hi : OIDInv h) (info : BoundAlterInfo N D) : OIDInv (h.alter info) := by
  unfold CatalogHistory.alter
  cases hc : h.current info.tableName with
  | none => exact hi
  | some entry =>
    have hlt : entry.oid < h.nextOID := hi.current.lt hc
    have hfresh : ∀ {name' entry'}, h.current name' = some entry' → entry'.oid = entry.oid →
        name' = info.tableName := fun hn => hi.current.inj hn hc
    cases info.newName with
    | none => exact ⟨hi.current.update_some hlt hfresh, hi.committed⟩
    | some newName =>
      dsimp only
      split
      · refine ⟨hi.current.update_none.update_some hlt ?_, hi.committed⟩
        intro name' entry' hn hoid
        by_cases heq : name' = info.tableName
        · subst heq; simp at hn
        · rw [update_of_ne heq] at hn
          exact absurd (hfresh hn hoid) heq
      · exact hi

theorem OIDInv.step (hi : OIDInv h) (command : CatalogCommand N D) : OIDInv (h.step command) := by
  have hwriting {h' : CatalogHistory N D} (hi' : OIDInv h') : OIDInv (if h.writing then h' else h) := by
    split
    · exact hi'
    · exact hi
  cases command with
  | beginRead => exact hi
  | beginWrite => exact ⟨hi.current, hi.committed⟩
  | takeOID =>
    exact ⟨hi.current.mono (Nat.le_succ _), fun v hv => (hi.committed v hv).mono (Nat.le_succ _)⟩
  | create name content => exact hwriting (hi.create name content)
  | drop name => exact hwriting ⟨hi.current.update_none, hi.committed⟩
  | alter info => exact hwriting (hi.alter info)
  | commit => exact hwriting ⟨hi.current, forall_mem_cons.mpr ⟨hi.current, hi.committed⟩⟩
  | rollback => exact hwriting ⟨hi.snapshot _, hi.committed⟩

theorem OIDInv.run (hi : OIDInv h) (commands : List (CatalogCommand N D)) : OIDInv (h.run commands) := by
  induction commands generalizing h with
  | nil => exact hi
  | cons command commands ih => exact ih (hi.step command)

omit [DecidableEq N] in
theorem OIDInv.load (stored : StoredCatalog N D) : OIDInv (load stored) where
  current := ⟨stored.oid_lt, stored.oid_inj⟩
  committed := by
    rintro version hv
    obtain rfl := mem_singleton.mp hv
    exact ⟨stored.oid_lt, stored.oid_inj⟩

end CatalogHistory

/-! ## Transactions see their snapshot -/

namespace CatalogSystem

variable {s : CatalogSystem N D} {t : Transaction}

/-- A transaction of the system: the write transaction, or one that has started before and has its
own ID. -/
def HasTransaction (s : CatalogSystem N D) (t : Transaction) : Prop :=
  s.writer = some t ∨ (startTransactionID ≤ t.id ∧ t.startTS ≤ s.lastTimestamp ∧
    ∀ writer, s.writer = some writer → writer.id ≠ t.id)

/-- The version of the catalog that a transaction should see. -/
def view (s : CatalogSystem N D) (h : CatalogHistory N D) (t : Transaction) :
    N → Option (VisibleEntry D) :=
  if s.writer = some t then h.current else h.snapshot t.startTS

end CatalogSystem

namespace Refines

variable {s : CatalogSystem N D} {h : CatalogHistory N D} {t : Transaction}

theorem visible_eq_view (hr : Refines s h) (hlt : s.lastTimestamp < startTransactionID)
    (ht : s.HasTransaction t) (name : N) : visible t (s.entries name) = s.view h t name := by
  obtain hw | ⟨hid, hts, hother⟩ := ht
  · rw [view, if_pos hw, visible, hr.traverse_writer hw]
    exact hr.current name
  · have hno : s.writer ≠ some t := fun hw => hother t hw rfl
    have hne : ∀ e ∈ s.entries name, e.timestamp ≠ t.id := by
      intro e he
      obtain hle | ⟨writer, hw, heq⟩ := hr.stamped name e he
      · omega
      · exact heq ▸ hother writer hw
    rw [view, if_neg hno, visible_eq_shownAt hne]
    exact hr.snapshot _ hts name

/-- No lookup runs off the end of a chain. -/
theorem traverse_ne_nil (hr : Refines s h) {name : N} (hne : s.entries name ≠ []) :
    traverse t (s.entries name) ≠ [] := by
  obtain ⟨e, he, h0⟩ := hr.bottom name hne
  revert he
  generalize s.entries name = chain
  intro he
  induction chain with
  | nil => simp at he
  | cons e' prev ih =>
    rw [CatalogEntries.traverse]
    split
    · simp
    · split
      · simp
      · next hts =>
        have hmem : e ∈ prev := (mem_cons.mp he).resolve_left fun heq => hts (by simp [← heq, h0])
        exact ih hmem

end Refines

namespace CatalogSystem

/-- Every transaction of every run finds by name exactly the entries of the last version committed at
or before its start, and the write transaction its own. It finds them by OID exactly if and only if
the newest version of every name that it sees, also one of a later or unfinished transaction, has the
OID of the entry that it sees. -/
theorem run_lookups (stored : StoredCatalog N D) (commands : List (CatalogCommand N D))
    (hlt : ((load stored).run commands).lastTimestamp < startTransactionID) (t : Transaction)
    (ht : ((load stored).run commands).HasTransaction t) (names : List N)
    (hnames : ∀ name, name ∈ names ↔ ((load stored).run commands).entries name ≠ []) :
    let s := (load stored).run commands
    let view := s.view ((CatalogHistory.load stored).run commands) t
    (∀ name, s.entries name ≠ [] → traverse t (s.entries name) ≠ []) ∧
    (∀ name, s.entries.getEntry t name = (view name).elim (.error (.doesNotExist name)) .ok) ∧
    (∀ name, s.entries.containsEntryNoLock t name = (view name).isSome) ∧
    (∀ name entry, (name, entry) ∈ s.entries.getEntries names t ↔ view name = some entry) ∧
    ((∀ oid name entry, s.entries.getEntryOfOID t oid names = some (name, entry) ↔
        view name = some entry ∧ entry.oid = oid) ↔
      ∀ name entry, view name = some entry →
        ∀ newest ∈ (s.entries name).head?, newest.oid = entry.oid) := by
  have hr := (Refines.load stored).run commands hlt
  have hoids := (OIDInv.load stored).run commands
  have hview := hr.visible_eq_view hlt ht
  refine ⟨fun name => hr.traverse_ne_nil, fun name => ?_, fun name => ?_, fun name entry => ?_, ?_⟩
  · rw [getEntry_eq, hview]
  · rw [containsEntryNoLock_eq, hview]
  · rw [mem_getEntries hnames, hview]
  · have hdistinct : DistinctOIDs ((CatalogHistory.load stored).run commands).nextOID
        fun name => visible t (((load stored).run commands).entries name) := by
      simp only [hview, view]
      split
      · exact hoids.current
      · exact hoids.snapshot _
    simpa only [hview] using getEntryOfOID_exact_iff hnames hdistinct

def emptyCatalog : StoredCatalog Bool Nat where
  entries := fun _ => none
  nextOID := 0
  oid_lt := by simp
  oid_inj := by simp

/-- A table is created, a reader starts, the table is dropped and its name reused. -/
def reuseName : List (CatalogCommand Bool Nat) :=
  [.beginWrite, .create true 7, .commit, .beginRead, .beginWrite, .drop true, .create true 8, .commit]

/-- The reader that starts between the first and the second write transaction. -/
def earlyReader : Transaction := ⟨startTransactionID + 2, 2⟩

theorem reuseName_entries_true : ((load emptyCatalog).run reuseName).entries true =
    [⟨1, 3, some 8⟩, ⟨0, 3, none⟩, ⟨0, 2, some 7⟩, ⟨0, 0, none⟩] := rfl

theorem reuseName_entries_false : ((load emptyCatalog).run reuseName).entries false = [] := rfl

theorem earlyReader_hasTransaction : ((load emptyCatalog).run reuseName).HasTransaction earlyReader := by
  refine .inr ⟨Nat.le_add_right _ 2, ?_, ?_⟩
  · exact (by decide : 2 ≤ 3)
  · exact fun writer hw => nomatch hw

/-- The reader finds the table by name, but not by its OID; the OID of the table that came later gives
the reader the table that it sees. -/
theorem reuseName_lookups : let s := (load emptyCatalog).run reuseName
    s.HasTransaction earlyReader ∧ s.entries.getEntry earlyReader true = .ok ⟨0, 7⟩ ∧
      s.entries.getEntryOfOID earlyReader 0 [true] = none ∧
      s.entries.getEntryOfOID earlyReader 1 [true] = some (true, ⟨0, 7⟩) :=
  ⟨earlyReader_hasTransaction, rfl, rfl, rfl⟩

theorem reuseName_run_lookups :
    ¬ ∀ oid name entry, ((load emptyCatalog).run reuseName).entries.getEntryOfOID earlyReader oid [true] =
        some (name, entry) ↔
      ((load emptyCatalog).run reuseName).view ((CatalogHistory.load emptyCatalog).run reuseName)
        earlyReader name = some entry ∧ entry.oid = oid := by
  have hnames : ∀ name, name ∈ [true] ↔ ((load emptyCatalog).run reuseName).entries name ≠ [] := by
    intro name
    cases name with
    | true => simp [reuseName_entries_true]
    | false => simp [reuseName_entries_false]
  have h := run_lookups emptyCatalog reuseName (by decide : 3 < startTransactionID) earlyReader
    earlyReader_hasTransaction [true] hnames
  rw [h.2.2.2.2]
  exact fun hoid => absurd (hoid true ⟨0, 7⟩ rfl ⟨1, 3, some 8⟩ rfl) (by decide)

end CatalogSystem

end CycleJoin
