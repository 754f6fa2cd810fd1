import CycleJoin.Catalog.Snapshots

/-!
# Concurrent write transactions on a catalog set

With `enableMultiWrites` several write transactions change the chains. `createEntryNoLock` refuses a
version on top of one that is not the transaction's own and not in its snapshot. `dropEntryNoLock` and
`alterTableEntry` make no such check.

* `CatalogWriters`: the chains with all active write transactions. `SafeRun`: a run in which no drop and no
  alter is made on a chain with a conflicting version.
* `CatalogWriters.Inv`: the versions of a transaction lie on top of what its snapshot shows, and its
  records are those of its versions. Every step of a safe run keeps it (`Inv.step`).
* `safeRun_conflicts`: what is refused, what a change is made from, and what commit and rollback do after
  every safe run.
-/

namespace CycleJoin

open CatalogEntries List Function CatalogEntry

variable {N D : Type} [DecidableEq N]

/-- A change of a catalog set by a write transaction. -/
inductive CatalogChange (N D : Type) where
  | create (name : N) (oid : Nat) (content : D)
  | drop (name : N) (oid : Nat)
  | alter (info : BoundAlterInfo N D)

namespace CatalogChange

/-- The name of the entry that is dropped or altered. -/
def replaced : CatalogChange N D → Option N
  | .create .. => none
  | .drop name _ => some name
  | .alter info => some info.tableName

/-- The new name of a rename. -/
def newName : CatalogChange N D → Option N
  | .alter info => info.newName
  | _ => none

/-- The name under which an entry is created. -/
def created : CatalogChange N D → Option N
  | .create name .. => some name
  | .drop .. => none
  | .alter info => info.newName

/-- A change of one chain, with the version that it pushes to the undo buffer. -/
def logged (entries : CatalogEntries N D) :
    Except (CatalogException N) (CatalogEntries N D × EntryPointer N) →
      CatalogEntries N D × Except (CatalogException N) (List (EntryPointer N))
  | .error ex => (entries, .error ex)
  | .ok (entries, pointer) => (entries, .ok [pointer])

/-- The chains after the change, with what it pushes to the undo buffer or throws. -/
def perform (entries : CatalogEntries N D) (t : Transaction) :
    CatalogChange N D → CatalogEntries N D × Except (CatalogException N) (List (EntryPointer N))
  | .create name oid content => logged entries (entries.createEntryNoLock t name oid content)
  | .drop name oid => logged entries (entries.dropEntryNoLock t name oid)
  | .alter info => entries.alterTableEntry t info

end CatalogChange

open CatalogChange (replaced newName created logged)

/-! ## Several write transactions -/

/-- An active write transaction, under its ID. -/
structure CatalogWriter (N : Type) where
  startTS : Nat
  undoBuffer : List (EntryPointer N) := []

/-- A catalog set with the transaction manager and the active write transactions by ID. -/
structure CatalogWriters (N D : Type) where
  entries : CatalogEntries N D
  lastTransactionID : Nat := startTransactionID
  lastTimestamp : Nat := 1
  writers : Nat → Option (CatalogWriter N) := fun _ => none

/-- What the write transactions ask for, in any order. -/
inductive WriterCommand (N D : Type) where
  | beginWrite
  | change (id : Nat) (change : CatalogChange N D)
  | commit (id : Nat)
  | rollback (id : Nat)

namespace CatalogWriters

section
variable (s : CatalogWriters N D) (id : Nat) (w : CatalogWriter N)

/-- A change by a transaction. A rename to a name that it sees is refused by the operator
(`checkRenameTableConflicts`). -/
def perform (change : CatalogChange N D) : CatalogWriters N D :=
  if change.newName.any (s.entries.containsEntryNoLock ⟨id, w.startTS⟩) then s
  else
    match change.perform s.entries ⟨id, w.startTS⟩ with
    | (entries, .error _) => { s with entries := entries }
    | (entries, .ok records) =>
      { s with
        entries := entries
        writers := update s.writers id (some { w with undoBuffer := w.undoBuffer ++ records }) }

def commit : CatalogWriters N D :=
  let commitTS := s.lastTimestamp + 1
  { s with
    lastTimestamp := commitTS
    entries := w.undoBuffer.foldl (commitCatalogEntryRecord commitTS) s.entries
    writers := update s.writers id none }

def rollback : CatalogWriters N D :=
  { s with
    entries := w.undoBuffer.foldr rollbackCatalogEntryRecord s.entries
    writers := update s.writers id none }

def step : WriterCommand N D → CatalogWriters N D
  | .beginWrite =>
    { s with
      lastTransactionID := s.lastTransactionID + 1
      writers := update s.writers (s.lastTransactionID + 1) (some ⟨s.lastTimestamp, []⟩) }
  | .change id change => (s.writers id).elim s (s.perform id · change)
  | .commit id => (s.writers id).elim s (s.commit id)
  | .rollback id => (s.writers id).elim s (s.rollback id)

def run (commands : List (WriterCommand N D)) : CatalogWriters N D := commands.foldl step s

end

/-- The catalog set of a database file. -/
def load (stored : StoredCatalog N D) : CatalogWriters N D where
  entries := (CatalogSystem.load stored).entries

end CatalogWriters

/-! ## Conflicts -/

/-- No version of the chain is uncommitted by another transaction or committed after the transaction
started. -/
def NoConflict (t : Transaction) (chain : List (CatalogEntry D)) : Prop := ∀ e ∈ chain, checkWWConflict t e = false

instance decidableNoConflict (t : Transaction) (chain : List (CatalogEntry D)) : Decidable (NoConflict t chain) :=
  inferInstanceAs (Decidable (∀ e ∈ chain, _))

namespace CatalogWriters

/-- A drop and an alter are made on chains without conflicting versions; a rename is made to one. Timestamps
stay below the IDs. -/
def SafeCommand (s : CatalogWriters N D) : WriterCommand N D → Prop
  | .change id change => ∀ w ∈ s.writers id,
    ∀ name ∈ change.replaced.toList ++ change.newName.toList, NoConflict ⟨id, w.startTS⟩ (s.entries name)
  | .commit _ => s.lastTimestamp + 1 < startTransactionID
  | _ => True

def SafeRun (s : CatalogWriters N D) : List (WriterCommand N D) → Prop
  | [] => True
  | command :: commands => s.SafeCommand command ∧ (s.step command).SafeRun commands

end CatalogWriters

section Chain

variable {t : Transaction} {chain : List (CatalogEntry D)}

theorem checkWWConflict_eq_false (hid : startTransactionID ≤ t.id) {e : CatalogEntry D} :
    checkWWConflict t e = false ↔
      e.timestamp = t.id ∨ e.timestamp < startTransactionID ∧ e.timestamp ≤ t.startTS := by
  simp only [checkWWConflict, Bool.or_eq_false_iff, Bool.and_eq_false_iff, decide_eq_false_iff_not,
    bne_eq_false_iff_eq]
  omega

theorem NoConflict.own_or_seen (hid : startTransactionID ≤ t.id) (h : NoConflict t chain) :
    ∀ e ∈ chain, e.timestamp = t.id ∨ e.timestamp ≤ t.startTS :=
  fun e he => ((checkWWConflict_eq_false hid).mp (h e he)).imp_right And.right

/-- A chain without conflicts has no version of another transaction. -/
theorem NoConflict.ne_other {id : Nat} (hid : startTransactionID ≤ id) (hne : id ≠ t.id)
    (h : NoConflict t chain) : ∀ e ∈ chain, e.timestamp ≠ id := by
  rintro e he rfl
  simpa [checkWWConflict, hid, hne] using h e he

theorem length_traverse_le (t : Transaction) (chain : List (CatalogEntry D)) :
    (traverse t chain).length ≤ chain.length := by
  induction chain with
  | nil => exact le_rfl
  | cons e prev ih =>
    rw [CatalogEntries.traverse]
    split
    · exact le_rfl
    split
    · exact le_rfl
    · exact ih.trans (Nat.le_succ _)

end Chain

section Entries

variable {entries : CatalogEntries N D} {t : Transaction} {name : N}

omit [DecidableEq N] in
theorem ne_nil_of_contains (h : entries.containsEntryNoLock t name = true) : entries name ≠ [] := by
  intro hnil
  rw [containsEntryNoLock, hnil] at h
  cases h

theorem createEntryNoLock_ok (hid : startTransactionID ≤ t.id) (entries : CatalogEntries N D) (name : N)
    (hunseen : entries.containsEntryNoLock t name = false) (hnc : NoConflict t (entries name)) (oid : Nat)
    (content : D) : ∃ r, entries.createEntryNoLock t name oid content = .ok r := by
  have htraverse := traverse_eq_self (hnc.own_or_seen hid)
  have hdel := hunseen
  rw [containsEntryNoLock, htraverse] at hdel
  rw [createEntryNoLock, hunseen]
  cases hchain : entries name with
  | nil => simp
  | cons e prev =>
    rw [hchain] at hnc hdel
    simp_all [hnc e mem_cons_self]

theorem emplaceNoLock_cases (entries : CatalogEntries N D) (name : N) (e : CatalogEntry D) (name' : N) :
    (name' = name ∧ entries.emplaceNoLock name e name' = e :: entries name) ∨
      entries.emplaceNoLock name e name' = entries name' := by
  by_cases hn : name' = name
  · exact .inl ⟨hn, by rw [hn, emplaceNoLock_self]⟩
  · exact .inr (emplaceNoLock_of_ne hn entries e)

theorem mem_emplaceNoLock {name' : N} {e e' : CatalogEntry D} (h : e ∈ entries name) :
    e ∈ entries.emplaceNoLock name' e' name := by
  by_cases hn : name = name'
  · subst hn
    simp [h]
  · rwa [emplaceNoLock_of_ne hn]

end Entries

/-! ## The invariant -/

/-- What an active transaction has in the chains: its versions are on top of what its snapshot shows, and
its records are those of its versions. -/
structure CatalogWriter.Inv (entries : CatalogEntries N D) (id : Nat) (w : CatalogWriter N) : Prop where
  owned : ∀ {name e}, e ∈ entries name → e.timestamp = id → NoConflict ⟨id, w.startTS⟩ (entries name)
  undo : UndoRecords id entries w.undoBuffer
  recorded : ∀ record ∈ w.undoBuffer, ∃ e ∈ entries record.name, e.timestamp = id

/-- A change of chains in which the transaction has no versions. -/
theorem CatalogWriter.Inv.frame {entries entries' : CatalogEntries N D} {id : Nat} {w : CatalogWriter N}
    (h : w.Inv entries id) (hframe : ∀ name, entries' name = entries name ∨
      (∀ e ∈ entries name, e.timestamp ≠ id) ∧ ∀ e ∈ entries' name, e.timestamp ≠ id) : w.Inv entries' id where
  owned := by
    intro name e he heq
    obtain hsame | ⟨-, hnone⟩ := hframe name
    · rw [hsame] at he ⊢
      exact h.owned he heq
    · exact absurd heq (hnone e he)
  undo := by
    refine h.undo.frame fun name => (hframe name).imp_right fun hnone => ⟨?_, hnone.2⟩
    rintro record hr rfl
    obtain ⟨e, he, heq⟩ := h.recorded record hr
    exact hnone.1 e he heq
  recorded := by
    intro record hr
    obtain ⟨e, he, heq⟩ := h.recorded record hr
    obtain hsame | ⟨hnone, -⟩ := hframe record.name
    · exact ⟨e, hsame ▸ he, heq⟩
    · exact absurd heq (hnone e he)

namespace CatalogWriters

/-- What holds of all chains and all active transactions. The versions in `K` are committed. -/
structure Inv (K : N → CatalogEntry D → Prop) (s : CatalogWriters N D) : Prop where
  lastTransactionID : startTransactionID ≤ s.lastTransactionID
  lastTimestamp : s.lastTimestamp < startTransactionID
  active : ∀ {id w}, s.writers id = some w →
    startTransactionID ≤ id ∧ id ≤ s.lastTransactionID ∧ w.startTS ≤ s.lastTimestamp
  stamped : ∀ name, ∀ e ∈ s.entries name, e.timestamp ≤ s.lastTimestamp ∨ (s.writers e.timestamp).isSome
  ordered : ∀ name, (s.entries name).Pairwise (·.timestamp ≥ ·.timestamp)
  writer : ∀ {id w}, s.writers id = some w → w.Inv s.entries id
  kept : ∀ {name e}, K name e → e ∈ s.entries name ∧ e.timestamp < startTransactionID

namespace Inv

variable {K : N → CatalogEntry D → Prop} {s : CatalogWriters N D} {id : Nat} {w : CatalogWriter N} {name : N}

theorem load (stored : StoredCatalog N D) : (load stored).Inv fun _ _ => False where
  lastTransactionID := le_rfl
  lastTimestamp := (by decide : 1 < startTransactionID)
  active := nofun
  stamped := by
    intro name e he
    obtain ⟨entry, -, rfl⟩ : ∃ entry, stored.entries name = some entry ∧ ⟨entry.oid, 0, some entry.content⟩ = e := by
      simpa [CatalogWriters.load, CatalogSystem.load] using he
    exact .inl (Nat.zero_le _)
  ordered := by
    intro name
    cases h : stored.entries name <;> simp [CatalogWriters.load, CatalogSystem.load, h]
  writer := nofun
  kept := nofun

section
variable (h : s.Inv K) (hw : s.writers id = some w)
include h hw

/-- A chain without conflicts is known by its newest version. -/
theorem noConflict_iff (name : N) : NoConflict ⟨id, w.startTS⟩ (s.entries name) ↔
    ∀ e, (s.entries name).head? = some e → checkWWConflict ⟨id, w.startTS⟩ e = false := by
  refine ⟨fun hnc e he => hnc e (mem_of_mem_head? he), fun hhead => ?_⟩
  have howned : ∀ {e}, e ∈ s.entries name → e.timestamp = id → NoConflict ⟨id, w.startTS⟩ (s.entries name) :=
    (h.writer hw).owned
  have hordered := h.ordered name
  have hid := (h.active hw).1
  cases hchain : s.entries name with
  | nil => exact nofun
  | cons e prev =>
    rw [hchain] at hhead howned hordered
    obtain he | ⟨hlo, hts⟩ := (checkWWConflict_eq_false hid).mp (hhead e rfl)
    · exact howned mem_cons_self he
    · -- the older versions have older timestamps
      refine forall_mem_cons.mpr ⟨hhead e rfl, fun e' he' => (checkWWConflict_eq_false hid).mpr (.inr ?_)⟩
      have hle := rel_of_pairwise_cons hordered he'
      exact ⟨lt_of_le_of_lt hle hlo, le_trans hle hts⟩

/-- A transaction sees the newest version exactly if none conflicts. -/
theorem traverse_eq_iff :
    traverse ⟨id, w.startTS⟩ (s.entries name) = s.entries name ↔ NoConflict ⟨id, w.startTS⟩ (s.entries name) := by
  obtain ⟨hid, -, hts⟩ := h.active hw
  have hlt := h.lastTimestamp
  refine ⟨fun heq => (h.noConflict_iff hw name).mpr fun e he => ?_, fun hnc => traverse_eq_self (hnc.own_or_seen hid)⟩
  obtain ⟨prev, hchain⟩ := head?_eq_some_iff.mp he
  rw [hchain, CatalogEntries.traverse] at heq
  refine (checkWWConflict_eq_false hid).mpr ?_
  split at heq
  · next hown => exact .inl hown
  split at heq
  · next hseen => exact .inr ⟨by simp only at hseen; omega, hseen⟩
  · have hle := length_traverse_le ⟨id, w.startTS⟩ prev
    rw [heq, length_cons] at hle
    omega

/-- A transaction adds a version on top of a chain without conflicts. -/
theorem push (hname : s.entries name ≠ []) (hnc : NoConflict ⟨id, w.startTS⟩ (s.entries name))
    {e : CatalogEntry D} (he : e.timestamp = id) :
    Inv K { s with
      entries := s.entries.emplaceNoLock name e
      writers := update s.writers id (some { w with undoBuffer := w.undoBuffer ++ [s.entries.newest name] }) } := by
  have hid := (h.active hw).1
  have hpushed : NoConflict ⟨id, w.startTS⟩ (e :: s.entries name) :=
    forall_mem_cons.mpr ⟨(checkWWConflict_eq_false hid).mpr (.inl he), hnc⟩
  constructor
  case lastTransactionID => exact h.lastTransactionID
  case lastTimestamp => exact h.lastTimestamp
  case kept => exact fun hk => (h.kept hk).imp_left mem_emplaceNoLock
  case active =>
    intro id' w' hw'
    simp only [update_apply] at hw'
    split at hw'
    · next heq =>
      cases hw'
      simpa only [heq] using h.active hw
    · exact h.active hw'
  case stamped =>
    intro name' e' he'
    have hold : e' = e ∨ e' ∈ s.entries name' := by
      obtain ⟨rfl, hc⟩ | hc := emplaceNoLock_cases s.entries name e name' <;> simp only [hc] at he'
      exacts [mem_cons.mp he', .inr he']
    obtain rfl | hold := hold
    · exact .inr (by simp [he])
    · refine (h.stamped name' e' hold).imp_right fun hsome => ?_
      simp only [update_apply]
      split <;> simp [hsome]
  case ordered =>
    intro name'
    obtain ⟨rfl, hc⟩ | hc := emplaceNoLock_cases s.entries name e name' <;> simp only [hc]
    · refine pairwise_cons.mpr ⟨fun e' he' => ?_, h.ordered name'⟩
      have hcases := (checkWWConflict_eq_false hid).mp (hnc e' he')
      simp only at hcases
      omega
    · exact h.ordered name'
  case writer =>
    intro id' w' hw'
    simp only [update_apply] at hw'
    split at hw'
    · next heq =>
      subst heq
      cases hw'
      refine ⟨fun {name' e'} he' heq => ?_, (h.writer hw).undo.push hname he, fun record hr => ?_⟩
      · obtain ⟨rfl, hc⟩ | hc := emplaceNoLock_cases s.entries name e name' <;> simp only [hc] at he' ⊢
        exacts [hpushed, (h.writer hw).owned he' heq]
      · obtain hr | hr := mem_append.mp hr
        · obtain ⟨e', he', heq⟩ := (h.writer hw).recorded record hr
          exact ⟨e', mem_emplaceNoLock he', heq⟩
        · obtain rfl := mem_singleton.mp hr
          exact ⟨e, by simp [newest], he⟩
    · next hne =>
      -- another transaction has no version in the chain
      have hid' := (h.active hw').1
      refine (h.writer hw').frame fun name' => ?_
      obtain ⟨rfl, hc⟩ | hc := emplaceNoLock_cases s.entries name e name' <;> simp only [hc]
      exacts [.inr ⟨hnc.ne_other hid' hne, hpushed.ne_other hid' hne⟩, .inl trivial]

end

theorem emplace_dummy (h : s.Inv K) (hname : s.entries name = []) (oid : Nat) :
    Inv K { s with entries := s.entries.emplaceNoLock name (dummy oid) } := by
  have hcases := emplaceNoLock_cases s.entries name (dummy oid)
  rw [hname] at hcases
  refine ⟨h.lastTransactionID, h.lastTimestamp, h.active, fun name' e he => ?_, fun name' => ?_, fun {id w} hw => ?_,
    fun hk => (h.kept hk).imp_left mem_emplaceNoLock⟩
  · obtain ⟨rfl, hc⟩ | hc := hcases name' <;> simp only [hc] at he
    · exact .inl (by simp [mem_singleton.mp he, dummy])
    · exact h.stamped name' e he
  · obtain ⟨rfl, hc⟩ | hc := hcases name' <;> simp only [hc]
    exacts [pairwise_singleton .., h.ordered name']
  · have hid : 0 < id := lt_of_lt_of_le (by decide) (h.active hw).1
    refine (h.writer hw).frame fun name' => ?_
    obtain ⟨rfl, hc⟩ | hc := hcases name' <;> simp only [hc]
    · exact .inr (by simp [hname, dummy, hid.ne])
    · exact .inl trivial

/-- A transaction ends: its versions leave the chains or get a timestamp. -/
theorem leave (h : s.Inv K) (hw : s.writers id = some w) {entries : CatalogEntries N D} {lastTimestamp : Nat}
    (hle : s.lastTimestamp ≤ lastTimestamp) (hlt : lastTimestamp < startTransactionID)
    (hsame : ∀ name, (∀ e ∈ s.entries name, e.timestamp ≠ id) → entries name = s.entries name)
    (hmem : ∀ name, ∀ e ∈ entries name, e ∈ s.entries name ∧ e.timestamp ≠ id ∨ e.timestamp ≤ lastTimestamp)
    (hkept : ∀ name, ∀ e ∈ s.entries name, e.timestamp ≠ id → e ∈ entries name)
    (hordered : ∀ name, (entries name).Pairwise (·.timestamp ≥ ·.timestamp)) :
    Inv K { s with
      entries := entries
      lastTimestamp := lastTimestamp
      writers := update s.writers id none } := by
  have hcases {id' w'} (hw' : update s.writers id none id' = some w') : id' ≠ id ∧ s.writers id' = some w' := by
    rw [update_apply] at hw'
    split at hw'
    · cases hw'
    · next hne => exact ⟨hne, hw'⟩
  constructor
  case lastTransactionID => exact h.lastTransactionID
  case lastTimestamp => exact hlt
  case kept =>
    intro name e hk
    have hid := (h.active hw).1
    exact (h.kept hk).imp_left fun he => hkept name e he (by have := (h.kept hk).2; omega)
  case active =>
    intro id' w' hw'
    obtain ⟨hid, hlast, hts⟩ := h.active (hcases hw').2
    exact ⟨hid, hlast, hts.trans hle⟩
  case stamped =>
    intro name e he
    obtain ⟨he, hne⟩ | hts := hmem name e he
    · exact (h.stamped name e he).imp hle.trans' fun hsome => by simpa [update_of_ne hne] using hsome
    · exact .inl hts
  case ordered => exact hordered
  case writer =>
    intro id' w' hw'
    obtain ⟨hne, hw'⟩ := hcases hw'
    refine (h.writer hw').frame fun name => ?_
    by_cases hnone : ∀ e ∈ s.entries name, e.timestamp ≠ id
    · exact .inl (hsame name hnone)
    -- next to a version of the transaction there is none of the other one
    push Not at hnone
    obtain ⟨e, he, heq⟩ := hnone
    have hid' := (h.active hw').1
    have hother := ((h.writer hw).owned he heq).ne_other hid' hne
    refine .inr ⟨hother, fun e' he' => ?_⟩
    obtain ⟨he', -⟩ | hts := hmem name e' he'
    · exact hother e' he'
    · omega

theorem commit_entries (h : s.Inv K) (hw : s.writers id = some w) (name : N) :
    (s.commit id w).entries name = (s.entries name).map (retime id (s.lastTimestamp + 1)) :=
  (h.writer hw).undo.commits ..

theorem rollback_entries (h : s.Inv K) (hw : s.writers id = some w) (name : N) :
    (s.rollback id w).entries name = (s.entries name).filter (·.timestamp ≠ id) :=
  (h.writer hw).undo.rollbacks ..

theorem commit (h : s.Inv K) (hw : s.writers id = some w) (hlt : s.lastTimestamp + 1 < startTransactionID) :
    (s.commit id w).Inv K := by
  have hentries (name : N) := (h.writer hw).undo.commits (s.lastTimestamp + 1) name
  refine h.leave hw (Nat.le_succ _) hlt (fun name hnone => ?_) (fun name e he => ?_) (fun name e he hne => ?_)
    fun name => ?_
  · rw [hentries, map_retime_of_ne hnone]
  · rw [hentries] at he
    obtain ⟨e', he', rfl⟩ := mem_map.mp he
    by_cases hid : e'.timestamp = id
    · simp [retime, hid]
    · simp [retime, hid, he']
  · rw [hentries]
    exact mem_map.mpr ⟨e, he, if_neg hne⟩
  · rw [hentries, pairwise_map]
    refine (h.ordered name).imp_of_mem fun {e e'} he he' hge => ?_
    have hid := (h.active hw).1
    have hts := (h.active hw).2.2
    -- next to a version of the transaction there are only its own and those of its snapshot
    by_cases hown : ∃ e ∈ s.entries name, e.timestamp = id
    · obtain ⟨e₀, he₀, heq⟩ := hown
      have hnc := ((h.writer hw).owned he₀ heq).own_or_seen hid
      have he := hnc e he
      have he' := hnc e' he'
      simp only at he he'
      by_cases h1 : e.timestamp = id <;> by_cases h2 : e'.timestamp = id <;> simp [retime, h1, h2] <;> omega
    · push Not at hown
      simpa [retime, hown e he, hown e' he'] using hge

theorem rollback (h : s.Inv K) (hw : s.writers id = some w) : (s.rollback id w).Inv K := by
  have hentries (name : N) := (h.writer hw).undo.rollbacks name
  refine h.leave hw le_rfl h.lastTimestamp (fun name hnone => ?_) (fun name e he => ?_) (fun name e he hne => ?_)
    fun name => ?_
  · rw [hentries]
    exact filter_eq_self.mpr fun e he => by simpa using hnone e he
  · rw [hentries] at he
    exact .inl (by simpa using he)
  · rw [hentries]
    simpa using ⟨he, hne⟩
  · rw [hentries]
    exact (h.ordered name).filter _

theorem beginWrite (h : s.Inv K) : (s.step .beginWrite).Inv K := by
  have hlast := h.lastTransactionID
  have hlt := h.lastTimestamp
  -- no version has the new ID
  have hfresh (name : N) (e : CatalogEntry D) (he : e ∈ s.entries name) : e.timestamp ≠ s.lastTransactionID + 1 := by
    obtain hts | hsome := h.stamped name e he
    · omega
    · obtain ⟨w, hw⟩ := Option.isSome_iff_exists.mp hsome
      have := (h.active hw).2.1
      omega
  have hcases {id w} (hw : (s.step .beginWrite).writers id = some w) :
      (id = s.lastTransactionID + 1 ∧ w = ⟨s.lastTimestamp, []⟩) ∨ s.writers id = some w := by
    simp only [CatalogWriters.step, update_apply] at hw
    split at hw
    · next heq => exact .inl ⟨heq, (Option.some.inj hw).symm⟩
    · exact .inr hw
  constructor
  case lastTransactionID => exact hlast.trans (Nat.le_succ _)
  case lastTimestamp => exact hlt
  case kept => exact h.kept
  case active =>
    intro id w hw
    obtain ⟨rfl, rfl⟩ | hw := hcases hw
    · exact ⟨hlast.trans (Nat.le_succ _), le_rfl, le_rfl⟩
    · obtain ⟨hid, hle, hts⟩ := h.active hw
      exact ⟨hid, hle.trans (Nat.le_succ _), hts⟩
  case stamped =>
    intro name e he
    exact (h.stamped name e he).imp_right fun hsome => by
      simpa [CatalogWriters.step, update_of_ne (hfresh name e he)] using hsome
  case ordered => exact h.ordered
  case writer =>
    intro id w hw
    obtain ⟨rfl, rfl⟩ | hw := hcases hw
    · exact ⟨fun he heq => absurd heq (hfresh _ _ he), UndoRecords.nil hfresh, nofun⟩
    · exact h.writer hw

/-! ## Changes -/

section
variable (h : s.Inv K) (hw : s.writers id = some w)
include h hw

/-- What is created is on top of a chain without conflicts. -/
theorem createEntryNoLock {oid : Nat} {content : D} {entries : CatalogEntries N D} {pointer : EntryPointer N}
    (hok : s.entries.createEntryNoLock ⟨id, w.startTS⟩ name oid content = .ok (entries, pointer)) :
    Inv K { s with
      entries := entries
      writers := update s.writers id (some { w with undoBuffer := w.undoBuffer ++ [pointer] }) } := by
  unfold CatalogEntries.createEntryNoLock at hok
  split at hok
  · cases hok
  split at hok
  · next hchain =>
    cases hok
    have hnc : NoConflict ⟨id, w.startTS⟩ (s.entries.emplaceNoLock name (dummy oid) name) := by
      rw [emplaceNoLock_self, hchain, NoConflict, forall_mem_singleton]
      exact (checkWWConflict_eq_false (h.active hw).1).mpr (.inr ⟨(by decide : 0 < startTransactionID), Nat.zero_le _⟩)
    exact (h.emplace_dummy hchain oid).push hw (by simp) hnc rfl
  · next existing prev hchain =>
    split at hok
    · cases hok
    next hww =>
    split at hok
    · cases hok
    cases hok
    have hnc := (h.noConflict_iff hw name).mpr fun e he => by
      rw [hchain] at he
      cases he
      simpa using hww
    exact h.push hw (by simp [hchain]) hnc rfl

/-- What is looked up in a chain without conflicts is the newest version. -/
theorem getEntryNoLock (hnc : NoConflict ⟨id, w.startTS⟩ (s.entries name)) {entry : VisibleEntry D}
    {pointer : EntryPointer N} (hok : s.entries.getEntryNoLock ⟨id, w.startTS⟩ name = .ok (entry, pointer)) :
    s.entries name ≠ [] ∧ pointer = s.entries.newest name ∧
      s.entries.containsEntryNoLock ⟨id, w.startTS⟩ name = true := by
  have htraverse := traverse_eq_self (hnc.own_or_seen (h.active hw).1)
  unfold CatalogEntries.getEntryNoLock at hok
  rw [containsEntryNoLock]
  rw [htraverse] at hok ⊢
  cases hchain : s.entries name with
  | nil => simp [hchain] at hok
  | cons e prev =>
    rw [hchain] at hok
    cases hc : e.content <;> simp [shown, hc] at hok
    simp [isDeleted, hc, newest, hchain, ← hok.2]

theorem perform {change : CatalogChange N D} (hsafe : ∀ name ∈ change.replaced.toList ++ change.newName.toList,
      NoConflict ⟨id, w.startTS⟩ (s.entries name)) : (s.perform id w change).Inv K := by
  unfold CatalogWriters.perform
  split
  · exact h
  next hfree =>
  cases change with
  | create name oid content =>
    rw [CatalogChange.perform]
    cases hok : s.entries.createEntryNoLock ⟨id, w.startTS⟩ name oid content with
    | error ex => exact h
    | ok r => exact h.createEntryNoLock hw hok
  | drop name oid =>
    have hnc := hsafe name (by simp [replaced])
    cases hseen : s.entries.containsEntryNoLock ⟨id, w.startTS⟩ name with
    | true =>
      simp only [CatalogChange.perform, dropEntryNoLock, hseen, if_true, logged]
      exact h.push hw (ne_nil_of_contains hseen) hnc rfl
    | false =>
      simp only [CatalogChange.perform, dropEntryNoLock, hseen, Bool.false_eq_true, if_false, logged]
      exact h
  | alter info =>
    rw [CatalogChange.perform, alterTableEntry]
    have hnc := hsafe info.tableName (by simp [replaced])
    cases hget : s.entries.getEntryNoLock ⟨id, w.startTS⟩ info.tableName with
    | error ex => exact h
    | ok r =>
      obtain ⟨entry, pointer⟩ := r
      obtain ⟨hne, rfl, hseen⟩ := h.getEntryNoLock hw hnc hget
      cases hnew : info.newName with
      | none => exact h.push hw hne hnc rfl
      | some new =>
        have hunseen : s.entries.containsEntryNoLock ⟨id, w.startTS⟩ new = false := by
          simpa [newName, hnew] using hfree
        have hdiff : new ≠ info.tableName := by
          rintro rfl
          rw [hseen] at hunseen
          cases hunseen
        have hdropped := h.push hw hne hnc (e := { dummy entry.oid with timestamp := id }) rfl
        -- the new name is free, so that the tombstone has its record
        obtain ⟨⟨entries, pointer⟩, hok⟩ := createEntryNoLock_ok (h.active hw).1
          (s.entries.emplaceNoLock info.tableName { dummy entry.oid with timestamp := id }) new
          (by rwa [containsEntryNoLock, emplaceNoLock_of_ne hdiff])
          (by rw [emplaceNoLock_of_ne hdiff]; exact hsafe new (by simp [newName, hnew]))
          entry.oid (info.alter entry.content)
        have hcreated := hdropped.createEntryNoLock (update_self ..) hok
        simp only [dropEntryNoLock, hseen, if_true, hok]
        simpa using hcreated

end

theorem step (h : s.Inv K) {command : WriterCommand N D} (hsafe : s.SafeCommand command) : (s.step command).Inv K := by
  have helim {f : CatalogWriter N → CatalogWriters N D} {id : Nat} (hf : ∀ w, s.writers id = some w → (f w).Inv K) :
      ((s.writers id).elim s f).Inv K := by
    cases hw : s.writers id with
    | none => exact h
    | some w => exact hf w hw
  cases command with
  | beginWrite => exact h.beginWrite
  | change id change => exact helim fun w hw => h.perform hw (hsafe w hw)
  | commit id => exact helim fun w hw => h.commit hw hsafe
  | rollback id => exact helim fun w hw => h.rollback hw

theorem run (h : s.Inv K) (commands : List (WriterCommand N D)) (hsafe : s.SafeRun commands) : (s.run commands).Inv K := by
  induction commands generalizing s with
  | nil => exact h
  | cons command commands ih => exact ih (h.step hsafe.1) hsafe.2

end Inv

/-! ## What is refused -/

section Refused

variable {entries : CatalogEntries N D} {t : Transaction} {name : N}

/-- `createEntryNoLock` looks at the newest version only. -/
theorem createEntryNoLock_wwConflict_iff (entries : CatalogEntries N D) (t : Transaction) (name : N) (oid : Nat)
    (content : D) :
    (∃ name', entries.createEntryNoLock t name oid content = .error (.wwConflict name')) ↔
      entries.containsEntryNoLock t name = false ∧
        ∃ e, (entries name).head? = some e ∧ checkWWConflict t e = true := by
  unfold createEntryNoLock
  cases hseen : entries.containsEntryNoLock t name with
  | true => simp
  | false =>
    cases hchain : entries name with
    | nil => simp
    | cons e prev =>
      cases hww : checkWWConflict t e <;> cases hdel : e.isDeleted <;> simp [hww, hdel]

omit [DecidableEq N] in
theorem getEntryNoLock_cases (entries : CatalogEntries N D) (t : Transaction) (name : N) :
    (entries.containsEntryNoLock t name = false ∧ entries.getEntryNoLock t name = .error (.doesNotExist name)) ∨
      (entries.containsEntryNoLock t name = true ∧
        ∃ entry pointer, entries.getEntryNoLock t name = .ok (entry, pointer)) := by
  unfold containsEntryNoLock getEntryNoLock
  cases CatalogEntries.traverse t (entries name) with
  | nil => simp
  | cons e prev => cases hc : e.content <;> simp [isDeleted, shown, hc]

/-- The creation of a rename is refused as any other; the tombstone is the transaction's own. -/
theorem alterTableEntry_wwConflict_iff (hid : startTransactionID ≤ t.id) (entries : CatalogEntries N D)
    (info : BoundAlterInfo N D) :
    (∃ name', (entries.alterTableEntry t info).2 = .error (.wwConflict name')) ↔
      entries.containsEntryNoLock t info.tableName = true ∧ ∃ new, info.newName = some new ∧
        entries.containsEntryNoLock t new = false ∧ ∃ e, (entries new).head? = some e ∧ checkWWConflict t e = true := by
  obtain ⟨hseen, hget⟩ | ⟨hseen, entry, pointer, hget⟩ := getEntryNoLock_cases entries t info.tableName
  · simp [alterTableEntry, hget, hseen]
  cases hnew : info.newName with
  | none => simp [alterTableEntry, hget, hnew]
  | some new =>
    have hcreate := createEntryNoLock_wwConflict_iff
      (entries.emplaceNoLock info.tableName { dummy entry.oid with timestamp := t.id }) t new entry.oid
      (info.alter entry.content)
    have hresult : (entries.alterTableEntry t info).2 =
        ((entries.emplaceNoLock info.tableName { dummy entry.oid with timestamp := t.id }).createEntryNoLock t new
          entry.oid (info.alter entry.content)).map fun r => [pointer, r.2] := by
      simp only [alterTableEntry, hget, hnew, dropEntryNoLock, hseen, if_true]
      generalize createEntryNoLock _ t new _ _ = r
      cases r <;> rfl
    have hmap {α β : Type} (r : Except (CatalogException N) α) (f : α → β) :
        (∃ name', r.map f = .error (.wwConflict name')) ↔ ∃ name', r = .error (.wwConflict name') := by
      cases r <;> simp [Except.map]
    rw [hresult, hmap, hcreate]
    by_cases hn : new = info.tableName
    · -- the tombstone is the newest version
      subst hn
      simp [hseen, checkWWConflict, Nat.not_lt.mpr hid]
    · have hcontains (e : CatalogEntry D) : (entries.emplaceNoLock info.tableName e).containsEntryNoLock t new =
          entries.containsEntryNoLock t new := by
        rw [containsEntryNoLock, emplaceNoLock_of_ne hn, containsEntryNoLock]
      simp [hseen, hcontains, emplaceNoLock_of_ne hn]

end Refused

/-- After every run in which drops and alters, renames included, are made on chains without conflicting
versions: all committed versions stay in all further such runs. A transaction commits and rolls back its own
versions and no others. It sees the newest version of a chain exactly if no version conflicts, and a
write-write conflict is thrown exactly by a creation or a rename to a name under which the transaction sees
no entry and where a version conflicts. A drop and an alter without a new name throw for entries that are
not seen only. -/
theorem safeRun_conflicts (stored : StoredCatalog N D) (commands : List (WriterCommand N D))
    (hsafe : (load stored).SafeRun commands) :
    let s := (load stored).run commands
    (∀ more, s.SafeRun more → ∀ name, ∀ e ∈ s.entries name, e.timestamp < startTransactionID →
      e ∈ (s.run more).entries name) ∧
    ∀ id w, s.writers id = some w →
      let t : Transaction := ⟨id, w.startTS⟩
      (∀ name, (s.commit id w).entries name = (s.entries name).map (retime id (s.lastTimestamp + 1))) ∧
      (∀ name, (s.rollback id w).entries name = (s.entries name).filter (·.timestamp ≠ id)) ∧
      (∀ name, traverse t (s.entries name) = s.entries name ↔ NoConflict t (s.entries name)) ∧
      ∀ change : CatalogChange N D,
        ((∃ name, (change.perform s.entries t).2 = .error (.wwConflict name)) ↔
          (∀ old ∈ change.replaced, s.entries.containsEntryNoLock t old = true) ∧
          ∃ new ∈ change.created, s.entries.containsEntryNoLock t new = false ∧ ¬ NoConflict t (s.entries new)) ∧
        (change.created = none → ((∃ ex, (change.perform s.entries t).2 = .error ex) ↔
          ∃ old ∈ change.replaced, s.entries.containsEntryNoLock t old = false)) := by
  intro s
  have h : s.Inv _ := (Inv.load stored).run commands hsafe
  refine ⟨fun more hmore name e he hlo => ?_, fun id w hw => ?_⟩
  · have hkept : s.Inv fun name' e' => name' = name ∧ e' = e := { h with
      kept := by
        rintro _ _ ⟨rfl, rfl⟩
        exact ⟨he, hlo⟩ }
    exact ((hkept.run more hmore).kept ⟨rfl, rfl⟩).1
  intro t
  refine ⟨h.commit_entries hw, h.rollback_entries hw, fun name => h.traverse_eq_iff hw, fun change => ?_⟩
  have hid : startTransactionID ≤ t.id := (h.active hw).1
  have hhead (name : N) : (∃ e, (s.entries name).head? = some e ∧ checkWWConflict t e = true) ↔
      ¬ NoConflict t (s.entries name) := by
    rw [h.noConflict_iff hw name]
    simp [t]
  cases change with
  | create name oid content =>
    have hww := createEntryNoLock_wwConflict_iff s.entries t name oid content
    rw [hhead] at hww
    simp only [CatalogChange.perform, created, replaced]
    generalize s.entries.createEntryNoLock t name oid content = r at hww ⊢
    cases r <;> simpa [logged] using hww
  | drop name oid =>
    cases hseen : s.entries.containsEntryNoLock t name <;>
      simp [CatalogChange.perform, created, replaced, dropEntryNoLock, hseen,
        logged]
  | alter info =>
    constructor
    · rw [CatalogChange.perform, alterTableEntry_wwConflict_iff hid]
      simp [hhead, created, replaced]
    · intro hnone
      have hnone : info.newName = none := hnone
      obtain ⟨hseen, hget⟩ | ⟨hseen, entry, pointer, hget⟩ := getEntryNoLock_cases s.entries t info.tableName <;>
        simp [CatalogChange.perform, replaced, alterTableEntry, hget, hnone, hseen]

/-- A database with one entry. -/
def oneEntry : StoredCatalog Bool Nat where
  entries := fun name => bif name then none else some ⟨0, 0⟩
  nextOID := 1
  oid_lt := by
    rintro (_ | _) entry h <;> cases h
    decide
  oid_inj := by
    rintro (_ | _) (_ | _) entry entry' h h' <;> simp_all

/-- `ALTER` with a statement that adds to the content. -/
def addAlter (k : Nat) : CatalogChange Bool Nat := .alter ⟨false, (k + ·), none⟩

/-- Two transactions; the first creates an entry, the second alters the stored one. -/
def createAndAlter : List (WriterCommand Bool Nat) :=
  [.beginWrite, .beginWrite, .change (startTransactionID + 1) (.create true 1 5),
    .change (startTransactionID + 2) (addAlter 2)]

/-- The second transaction cannot create an entry under the name of the first one, and its rollback leaves
the entry of the first one. -/
theorem createAndAlter_conflicts :
    let s := (load oneEntry).run createAndAlter
    (∃ name, (CatalogChange.perform s.entries ⟨startTransactionID + 2, 1⟩ (.create true 2 6)).2 =
      .error (.wwConflict name)) ∧
    ∀ name, (s.rollback (startTransactionID + 2) ⟨1, [⟨false, 0⟩]⟩).entries name =
      (s.entries name).filter (·.timestamp ≠ startTransactionID + 2) := by
  have hsafe : (load oneEntry).SafeRun createAndAlter := by
    refine ⟨trivial, trivial, ?_, ?_, trivial⟩ <;> rintro w hw
    · exact nofun
    · cases hw
      decide +kernel
  obtain ⟨-, h⟩ := safeRun_conflicts oneEntry createAndAlter hsafe
  obtain ⟨-, hrollback, -, hchange⟩ := h (startTransactionID + 2) ⟨1, [⟨false, 0⟩]⟩ rfl
  exact ⟨(hchange (.create true 2 6)).1.mpr ⟨nofun, true, rfl, by decide +kernel, by decide +kernel⟩, hrollback⟩

/-- Two transactions of one snapshot alter the entry. The second is not refused and its version lacks the
first change. Its rollback takes away the version of the first transaction and leaves its own; its commit
stamps the version of the first transaction and never its own. -/
theorem alter_alter_overwrites :
    let id₁ := startTransactionID + 1
    let id₂ := startTransactionID + 2
    let s := (load oneEntry).run
      [.beginWrite, .beginWrite, .change id₁ (addAlter 1), .change id₂ (addAlter 2)]
    s.entries false = [⟨0, id₂, some 2⟩, ⟨0, id₁, some 1⟩, ⟨0, 0, some 0⟩] ∧
    (s.run [.rollback id₂]).entries false = [⟨0, id₂, some 2⟩, ⟨0, 0, some 0⟩] ∧
    (s.run [.commit id₁, .commit id₂]).entries false =
      [⟨0, id₂, some 2⟩, ⟨0, 3, some 1⟩, ⟨0, 0, some 0⟩] := by
  decide +kernel

end CatalogWriters

end CycleJoin
