import CycleJoin.Catalog.CatalogSet

/-!
# Snapshots of the catalog

* `CatalogHistory`: what the catalog is for. Every commit leaves a version of the whole catalog, a
  transaction sees the last version committed at or before its start, the write transaction its own.
* `shownAt`, `newestShown`: what a chain shows to a reader and to the write transaction.
* `UndoRecords`: what the undo buffer says of the chains. All changes are pushes of one version
  (`UndoRecords.push`).
-/

namespace CycleJoin

open CatalogEntries List Function

variable {N D : Type} [DecidableEq N]

/-! ## The abstract catalog -/

/-- The versions of a whole catalog. -/
structure CatalogHistory (N D : Type) where
  /-- The committed versions with their timestamps, the newest first. -/
  committed : List (Nat × (N → Option (VisibleEntry D)))
  /-- What the write transaction sees; without one, the newest committed version. -/
  current : N → Option (VisibleEntry D)
  nextOID : Nat
  lastTimestamp : Nat
  writing : Bool

namespace CatalogHistory

/-- The last version committed at or before a timestamp. -/
def snapshotOf (committed : List (Nat × (N → Option (VisibleEntry D)))) (ts : Nat) :
    N → Option (VisibleEntry D) :=
  (committed.find? (·.1 ≤ ts)).elim (fun _ => none) Prod.snd

section
variable (h : CatalogHistory N D)

def snapshot (ts : Nat) : N → Option (VisibleEntry D) :=
  snapshotOf h.committed ts

def create (name : N) (content : D) : CatalogHistory N D :=
  { h with
    current :=
      if h.current name = none then update h.current name (some ⟨h.nextOID, content⟩)
      else h.current
    nextOID := h.nextOID + 1 }

def drop (name : N) : CatalogHistory N D :=
  { h with current := update h.current name none }

/-- A rename takes the entry to a free name; the OID stays. -/
def alter (info : BoundAlterInfo N D) : CatalogHistory N D :=
  match h.current info.tableName, info.newName with
  | none, _ => h
  | some entry, none =>
    { h with
      current := update h.current info.tableName
        (some { entry with content := info.alter entry.content }) }
  | some entry, some newName =>
    if h.current newName = none then
      { h with
        current := update (update h.current info.tableName none) newName
          (some { entry with content := info.alter entry.content }) }
    else h

def step : CatalogCommand N D → CatalogHistory N D
  | .beginRead => h
  | .beginWrite => { h with writing := true }
  | .takeOID => { h with nextOID := h.nextOID + 1 }
  | .create name content => if h.writing then h.create name content else h
  | .drop name => if h.writing then h.drop name else h
  | .alter info => if h.writing then h.alter info else h
  | .commit =>
    if h.writing then
      { h with
        committed := (h.lastTimestamp + 1, h.current) :: h.committed
        lastTimestamp := h.lastTimestamp + 1
        writing := false }
    else h
  | .rollback =>
    if h.writing then { h with current := h.snapshot h.lastTimestamp, writing := false } else h

def run (commands : List (CatalogCommand N D)) : CatalogHistory N D :=
  commands.foldl step h

end

def load (stored : StoredCatalog N D) : CatalogHistory N D where
  committed := [(0, stored.entries)]
  current := stored.entries
  nextOID := stored.nextOID
  lastTimestamp := 1
  writing := false

end CatalogHistory

/-! ## Chains -/

namespace CatalogEntries

variable {t : Transaction} {chain : List (CatalogEntry D)} {ts : Nat}

/-- The entry that the newest version shows. -/
def newestShown (chain : List (CatalogEntry D)) : Option (VisibleEntry D) :=
  chain.head?.bind CatalogEntry.shown

/-- The entry of the newest version stamped at or before a timestamp. -/
def shownAt (ts : Nat) (chain : List (CatalogEntry D)) : Option (VisibleEntry D) :=
  (chain.find? (·.timestamp ≤ ts)).bind CatalogEntry.shown

theorem visible_eq_shownAt (hid : ∀ e ∈ chain, e.timestamp ≠ t.id) : visible t chain = shownAt t.startTS chain := by
  induction chain with
  | nil => rfl
  | cons e prev ih =>
    have he := hid e mem_cons_self
    by_cases hts : e.timestamp ≤ t.startTS
    · simp [visible, traverse, shownAt, hts]
    · have ih := ih fun e' he' => hid e' (mem_cons_of_mem _ he')
      simpa [visible, traverse, shownAt, he, hts] using ih

theorem traverse_eq_self (h : ∀ e ∈ chain, e.timestamp = t.id ∨ e.timestamp ≤ t.startTS) :
    traverse t chain = chain := by
  cases chain with
  | nil => rfl
  | cons e prev =>
    obtain he | he := h e mem_cons_self
    · simp [traverse, he]
    · simp [traverse, he]

theorem shownAt_eq_newestShown (h : ∀ e ∈ chain, e.timestamp ≤ ts) : shownAt ts chain = newestShown chain := by
  cases chain with
  | nil => rfl
  | cons e prev => simp [shownAt, newestShown, h e mem_cons_self]

variable {e : CatalogEntry D}

theorem shownAt_cons_of_lt (h : ts < e.timestamp) : shownAt ts (e :: chain) = shownAt ts chain := by
  simp [shownAt, Nat.not_le.mpr h]

/-- The versions of a transaction get the commit timestamp. -/
def retime (id ts : Nat) (e : CatalogEntry D) : CatalogEntry D :=
  if e.timestamp = id then { e with timestamp := ts } else e

theorem map_retime_of_ne {id : Nat} (h : ∀ e ∈ chain, e.timestamp ≠ id) : chain.map (retime id ts) = chain := by
  have hmap : chain.map (retime id ts) = chain.map fun e => e := map_congr_left fun e he => if_neg (h e he)
  simpa using hmap

/-- Before the commit timestamp nothing changes. -/
theorem shownAt_map_retime {id c : Nat} (hid : ts < id) (hc : ts < c) :
    shownAt ts (chain.map (retime id c)) = shownAt ts chain := by
  induction chain with
  | nil => rfl
  | cons e prev ih =>
    by_cases he : e.timestamp = id
    · have h : ts < e.timestamp := he ▸ hid
      have h' : ts < (retime id c e).timestamp := by simpa [retime, he] using hc
      rw [map_cons, shownAt_cons_of_lt h', shownAt_cons_of_lt h, ih]
    · have hre : retime id c e = e := by simp [retime, he]
      rw [map_cons, hre]
      by_cases hts : e.timestamp ≤ ts
      · simp [shownAt, hts]
      · rw [shownAt_cons_of_lt (by omega), shownAt_cons_of_lt (by omega), ih]

theorem shownAt_filter {id : Nat} (hid : ts < id) :
    shownAt ts (chain.filter (·.timestamp ≠ id)) = shownAt ts chain := by
  induction chain with
  | nil => rfl
  | cons e prev ih =>
    by_cases he : e.timestamp = id
    · rw [filter_cons_of_neg (by simpa using he), shownAt_cons_of_lt (he ▸ hid), ih]
    · rw [filter_cons_of_pos (by simpa using he)]
      by_cases hts : e.timestamp ≤ ts
      · simp [shownAt, hts]
      · rw [shownAt_cons_of_lt (by omega), shownAt_cons_of_lt (by omega), ih]

theorem newestShown_map_retime (id c : Nat) : newestShown (chain.map (retime id c)) = newestShown chain := by
  cases chain with
  | nil => rfl
  | cons e prev =>
    by_cases he : e.timestamp = id <;> simp [newestShown, retime, he, CatalogEntry.shown]

/-! ## Records of the undo buffer -/

theorem setTimestamp_cons_of_lt {older : Nat} (h : older < chain.length) :
    setTimestamp older ts (e :: chain) = e :: setTimestamp older ts chain := by
  simp [setTimestamp, Nat.ne_of_gt h]

@[simp]
theorem length_setTimestamp (older ts : Nat) (chain : List (CatalogEntry D)) :
    (setTimestamp older ts chain).length = chain.length := by
  induction chain with
  | nil => rfl
  | cons e prev ih => rw [setTimestamp]; split <;> simp [ih]

/-- What committing the records does to the chain of one name. -/
def commitChain (ts : Nat) (name : N) (chain : List (CatalogEntry D)) (records : List (EntryPointer N)) :
    List (CatalogEntry D) :=
  records.foldl
    (fun chain record => if record.name = name then setTimestamp (record.older + 1) ts chain else chain)
    chain

theorem foldl_commitCatalogEntryRecord (ts : Nat) (entries : CatalogEntries N D)
    (records : List (EntryPointer N)) (name : N) :
    records.foldl (commitCatalogEntryRecord ts) entries name = commitChain ts name (entries name) records := by
  induction records generalizing entries with
  | nil => rfl
  | cons record records ih =>
    rw [foldl_cons, ih, commitChain, commitChain, foldl_cons, commitCatalogEntryRecord]
    by_cases h : record.name = name
    · subst h; rw [update_self, if_pos rfl]
    · rw [update_of_ne (Ne.symm h), if_neg h]

variable {records : List (EntryPointer N)} {name : N}

/-- Records below a new version leave it alone. -/
theorem commitChain_cons (h : ∀ record ∈ records, record.name = name → record.older + 1 < chain.length) :
    commitChain ts name (e :: chain) records = e :: commitChain ts name chain records := by
  induction records generalizing chain with
  | nil => rfl
  | cons record records ih =>
    have hrest : ∀ r ∈ records, r.name = name → r.older + 1 < chain.length :=
      fun r hr => h r (mem_cons_of_mem _ hr)
    simp only [commitChain, foldl_cons] at ih ⊢
    by_cases hn : record.name = name
    · rw [if_pos hn, if_pos hn, setTimestamp_cons_of_lt (h record mem_cons_self hn)]
      exact ih (by simpa using hrest)
    · rw [if_neg hn, if_neg hn]
      exact ih hrest

/-- The chain of a name without records stays. -/
theorem commitChain_of_forall_ne
    (h : ∀ record ∈ records, record.name ≠ name) : commitChain ts name chain records = chain := by
  induction records with
  | nil => rfl
  | cons record records ih =>
    rw [commitChain, foldl_cons, if_neg (h record mem_cons_self)]
    exact ih fun r hr => h r (mem_cons_of_mem _ hr)

/-- A rollback of the records reads each chain by itself. -/
theorem foldr_rollbackCatalogEntryRecord_congr {entries entries' : CatalogEntries N D}
    (heq : entries' name = entries name) (records : List (EntryPointer N)) :
    records.foldr rollbackCatalogEntryRecord entries' name = records.foldr rollbackCatalogEntryRecord entries name := by
  induction records with
  | nil => exact heq
  | cons record records ih =>
    rw [foldr_cons, foldr_cons, rollbackCatalogEntryRecord, rollbackCatalogEntryRecord]
    by_cases h : name = record.name
    · subst h
      rw [update_self, update_self, ih]
    · rw [update_of_ne h, update_of_ne h, ih]

theorem foldr_rollbackCatalogEntryRecord_of_ne (h : ∀ record ∈ records, record.name ≠ name)
    (entries : CatalogEntries N D) : records.foldr rollbackCatalogEntryRecord entries name = entries name := by
  induction records with
  | nil => rfl
  | cons record records ih =>
    rw [foldr_cons, rollbackCatalogEntryRecord, update_of_ne (h record mem_cons_self).symm]
    exact ih fun r hr => h r (mem_cons_of_mem _ hr)

@[simp]
theorem emplaceNoLock_self (entries : CatalogEntries N D) (name : N) (e : CatalogEntry D) :
    entries.emplaceNoLock name e name = e :: entries name := update_self ..

theorem emplaceNoLock_of_ne {name name' : N} (h : name' ≠ name) (entries : CatalogEntries N D)
    (e : CatalogEntry D) : entries.emplaceNoLock name e name' = entries name' :=
  update_of_ne h ..

/-- What the undo buffer of the write transaction says of the chains: a commit stamps the versions of
the transaction, a rollback takes them away. -/
structure UndoRecords (id : Nat) (entries : CatalogEntries N D) (records : List (EntryPointer N)) :
    Prop where
  inRange : ∀ record ∈ records, record.older + 1 < (entries record.name).length
  commits : ∀ ts name, records.foldl (commitCatalogEntryRecord ts) entries name =
    (entries name).map (retime id ts)
  rollbacks : ∀ name, records.foldr rollbackCatalogEntryRecord entries name =
    (entries name).filter (·.timestamp ≠ id)

namespace UndoRecords

variable {id : Nat} {entries : CatalogEntries N D} {records : List (EntryPointer N)} {name : N}

theorem nil (h : ∀ name, ∀ e ∈ entries name, e.timestamp ≠ id) : UndoRecords id entries [] where
  inRange := by simp
  commits := fun ts name => (map_retime_of_ne (h name)).symm
  rollbacks := fun name => by
    simpa using (filter_eq_self.mpr fun e he => by simpa using h name e he).symm

variable (h : UndoRecords id entries records)
include h

theorem ne_of_absent (hname : entries name = []) : ∀ record ∈ records, record.name ≠ name := by
  rintro record hr rfl
  have := h.inRange record hr
  simp [hname] at this

/-- The records do not reach chains of other names. -/
theorem frame {entries' : CatalogEntries N D} (hframe : ∀ name, entries' name = entries name ∨
      (∀ record ∈ records, record.name ≠ name) ∧ ∀ e ∈ entries' name, e.timestamp ≠ id) :
    UndoRecords id entries' records where
  inRange := fun record hr => by
    obtain heq | ⟨hne, -⟩ := hframe record.name
    · rw [heq]
      exact h.inRange record hr
    · exact absurd rfl (hne record hr)
  commits := fun ts name => by
    rw [foldl_commitCatalogEntryRecord]
    obtain heq | ⟨hne, hid⟩ := hframe name
    · rw [heq, ← foldl_commitCatalogEntryRecord, h.commits]
    · rw [commitChain_of_forall_ne hne]
      exact (map_retime_of_ne hid).symm
  rollbacks := fun name => by
    obtain heq | ⟨hne, hid⟩ := hframe name
    · rw [foldr_rollbackCatalogEntryRecord_congr heq, h.rollbacks, heq]
    · rw [foldr_rollbackCatalogEntryRecord_of_ne hne]
      exact (filter_eq_self.mpr fun e he => by simpa using hid e he).symm

theorem emplace_dummy (hname : entries name = []) {e : CatalogEntry D} (he : e.timestamp ≠ id) :
    UndoRecords id (entries.emplaceNoLock name e) records := by
  refine h.frame fun name' => ?_
  by_cases hn : name' = name
  · subst hn
    refine .inr ⟨h.ne_of_absent hname, fun e' he' => ?_⟩
    rw [emplaceNoLock_self, hname, mem_singleton] at he'
    exact he' ▸ he
  · exact .inl (emplaceNoLock_of_ne hn entries e)

theorem push (hname : entries name ≠ []) {e : CatalogEntry D} (he : e.timestamp = id) :
    UndoRecords id (entries.emplaceNoLock name e) (records ++ [entries.newest name]) := by
  have hlen : (entries name).length - 1 + 1 = (entries name).length := Nat.sub_add_cancel (length_pos_iff.mpr hname)
  constructor
  case inRange =>
    intro record hr
    obtain hr | hr := mem_append.mp hr
    · have hlt := h.inRange record hr
      by_cases hn : record.name = name
      · subst hn
        simp only [emplaceNoLock_self, length_cons]
        omega
      · rwa [emplaceNoLock_of_ne hn]
    · obtain rfl := mem_singleton.mp hr
      simp only [newest, emplaceNoLock_self, length_cons]
      omega
  case commits =>
    intro ts name'
    rw [foldl_append, foldl_cons, foldl_nil, commitCatalogEntryRecord]
    by_cases hn : name' = name
    · subst hn
      have hbelow : ∀ record ∈ records, record.name = name' → record.older + 1 < (entries name').length := by
        rintro record hr rfl
        exact h.inRange record hr
      rw [newest, foldl_commitCatalogEntryRecord, emplaceNoLock_self, commitChain_cons hbelow, hlen, setTimestamp,
        ← foldl_commitCatalogEntryRecord, h.commits]
      simp [retime, he]
    · rw [newest, update_of_ne hn, foldl_commitCatalogEntryRecord, emplaceNoLock_of_ne hn,
        ← foldl_commitCatalogEntryRecord, h.commits]
  case rollbacks =>
    intro name'
    have hback : rollbackCatalogEntryRecord (entries.newest name) (entries.emplaceNoLock name e) =
        entries := by
      rw [rollbackCatalogEntryRecord, newest, emplaceNoLock_self, hlen, unlink, if_pos rfl,
        emplaceNoLock, update_idem, update_eq_self]
    rw [foldr_append, foldr_cons, foldr_nil, hback, h.rollbacks]
    by_cases hn : name' = name
    · subst hn
      rw [emplaceNoLock_self, filter_cons_of_neg (by simpa using he)]
    · rw [emplaceNoLock_of_ne hn]

end UndoRecords

end CatalogEntries

end CycleJoin
