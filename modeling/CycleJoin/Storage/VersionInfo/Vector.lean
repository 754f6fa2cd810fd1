import CycleJoin.Storage.VersionInfo.RowLog

/-!
# The versions of one vector

What the fields of a `VectorVersionInfo` say about the rows of its vector, and that the operations
keep it. The vector holds the rows `i < c`; row `i` was inserted by `ins i` and deleted by `del i`.

* `InsertMatch`: the insertion fields stand for `ins`. While the records of a transaction are undone
  or stamped one by one, the fields of rows that are still to come may be ahead of the log: `ok` says
  which versions a stamp may have, `lost` which rows may already count as not inserted.
* `DeleteMatch`: the deletion fields stand for `del`.
* `Matches.isSelected`: a transaction selects the rows that it sees.
-/

namespace CycleJoin

open VectorVersionInfo Option Function

/-- IDs start at `START_TRANSACTION_ID`, timestamps are below. -/
def Stamp.Valid : Stamp → Prop
  | checkpointed => True
  | committed ts => ts < startTransactionID
  | pending id => startTransactionID ≤ id ∧ id < invalidTransaction

theorem startTransactionID_lt_invalidTransaction : startTransactionID < invalidTransaction := by
  decide

namespace Stamp

theorem Valid.version_ne_invalid {s : Stamp} (h : s.Valid) : s.version ≠ invalidTransaction := by
  have hlt := startTransactionID_lt_invalidTransaction
  cases s with
  | checkpointed => exact (by decide : 0 ≠ invalidTransaction)
  | committed ts => exact ne_of_lt (h.trans hlt)
  | pending id => exact ne_of_lt h.2

/-- A version is visible to a transaction if its stamp is. -/
theorem Valid.visibleTo_iff {s : Stamp} (h : s.Valid) {t : Transaction}
    (hid : startTransactionID ≤ t.id) (hts : t.startTS < startTransactionID) :
    (s.version = t.id ∨ s.version ≤ t.startTS) ↔ s.VisibleTo t := by
  cases s with
  | checkpointed => simp [version, VisibleTo]
  | committed ts =>
    have h : ts < startTransactionID := h
    simp only [version, VisibleTo]
    omega
  | pending id =>
    have h := h.1
    simp only [version, VisibleTo]
    omega

end Stamp

def deletionVersion : Option Stamp → Nat
  | none => invalidTransaction
  | some s => s.version

def exactVersion (s : Stamp) (version : Nat) : Prop := version = s.version

namespace VectorVersionInfo

/-- The insertion fields of a vector. -/
inductive InsertMatch (ok : Stamp → Nat → Prop) (lost : Stamp → Prop) (ins : Nat → Stamp) (c : Nat)
    (info : VectorVersionInfo) : Prop
  | noInserted (hst : info.insertionStatus = .noInserted)
      (hsame : info.sameInsertionVersion = invalidTransaction) (harr : info.insertedVersions = none)
      (hrows : ∀ i < c, lost (ins i))
  | alwaysInserted (hst : info.insertionStatus = .alwaysInserted)
      (hsame : info.sameInsertionVersion = invalidTransaction) (harr : info.insertedVersions = none)
      (hrows : ∀ i < c, ins i = .checkpointed)
  | same (hst : info.insertionStatus = .checkVersion)
      (hsame : info.sameInsertionVersion ≠ invalidTransaction) (harr : info.insertedVersions = none)
      (hc : 0 < c) (hrows : ∀ i < c, ok (ins i) info.sameInsertionVersion ∧ ins i ≠ .checkpointed)
  | array (versions : Nat → Nat) (hst : info.insertionStatus = .checkVersion)
      (hsame : info.sameInsertionVersion = invalidTransaction)
      (harr : info.insertedVersions = some versions) (hc : 0 < c)
      (hfirst : ∃ ts, ins 0 = .committed ts)
      (hrows : ∀ i < c, ok (ins i) (versions i) ∧ ins i ≠ .checkpointed)
      (hend : ∀ i, c ≤ i → versions i = invalidTransaction)

/-- The deletion fields of a vector. -/
structure DeleteMatch (lost : Stamp → Prop) (ins : Nat → Stamp) (del : Nat → Option Stamp) (c : Nat)
    (info : VectorVersionInfo) : Prop where
  same : info.sameDeletionVersion = invalidTransaction
  versions : ∀ i, info.deletedVersions.getD invalidVersions i =
    if i < c then deletionVersion (del i) else invalidTransaction
  checked : info.deletionStatus = .checkVersion → info.deletedVersions.isSome
  notDeleted : info.deletionStatus = .noDeleted → ∀ i < c, del i = none ∨ lost (ins i)

/-- The fields of a vector. -/
structure Matches (ok : Stamp → Nat → Prop) (lost : Stamp → Prop) (ins : Nat → Stamp)
    (del : Nat → Option Stamp) (c : Nat) (info : VectorVersionInfo) : Prop where
  inserted : InsertMatch ok lost ins c info
  deleted : DeleteMatch lost ins del c info

/-- The fields of a vector between transactions. -/
abbrev Exact (ins : Nat → Stamp) (del : Nat → Option Stamp) (c : Nat) (info : VectorVersionInfo) :
    Prop := Matches exactVersion (fun _ => False) ins del c info

theorem exact_new (ins : Nat → Stamp) (del : Nat → Option Stamp) : Exact ins del 0 .new where
  inserted := .noInserted rfl rfl rfl (by simp)
  deleted := ⟨rfl, by simp [new, invalidVersions], by simp [new], by simp⟩

variable {ok : Stamp → Nat → Prop} {lost : Stamp → Prop} {ins ins' : Nat → Stamp}
  {del del' : Nat → Option Stamp} {c i : Nat} {info info' : VectorVersionInfo} {t : Transaction}

/-- The insertion fields, for the same rows and with weaker conditions on them. They do not depend on the
deletion fields. -/
theorem InsertMatch.map {ok' : Stamp → Nat → Prop} {lost' : Stamp → Prop} (h : InsertMatch ok lost ins c info)
    (hins : ∀ i < c, ins' i = ins i) (hok : ∀ i < c, ∀ w, ok (ins i) w → ok' (ins i) w)
    (hlost : ∀ i < c, lost (ins i) → lost' (ins i)) (hst : info'.insertionStatus = info.insertionStatus)
    (hsame : info'.sameInsertionVersion = info.sameInsertionVersion)
    (harr : info'.insertedVersions = info.insertedVersions) : InsertMatch ok' lost' ins' c info' := by
  have hrow {w : Nat} (i : Nat) (hi : i < c) (hr : ok (ins i) w ∧ ins i ≠ .checkpointed) :
      ok' (ins' i) w ∧ ins' i ≠ .checkpointed := hins i hi ▸ ⟨hok i hi _ hr.1, hr.2⟩
  cases h with
  | noInserted h₁ h₂ h₃ hrows =>
    exact .noInserted (hst.trans h₁) (hsame.trans h₂) (harr.trans h₃) fun i hi =>
      hins i hi ▸ hlost i hi (hrows i hi)
  | alwaysInserted h₁ h₂ h₃ hrows =>
    exact .alwaysInserted (hst.trans h₁) (hsame.trans h₂) (harr.trans h₃) fun i hi =>
      (hins i hi).trans (hrows i hi)
  | same h₁ h₂ h₃ hc hrows =>
    exact .same (hst.trans h₁) (hsame ▸ h₂) (harr.trans h₃) hc fun i hi => hrow i hi (hsame ▸ hrows i hi)
  | array versions h₁ h₂ h₃ hc hfirst hrows hend =>
    exact .array versions (hst.trans h₁) (hsame.trans h₂) (harr.trans h₃) hc (hins 0 hc ▸ hfirst)
      (fun i hi => hrow i hi (hrows i hi)) hend

theorem InsertMatch.congr (h : InsertMatch ok lost ins c info) (hst : info'.insertionStatus = info.insertionStatus)
    (hsame : info'.sameInsertionVersion = info.sameInsertionVersion)
    (harr : info'.insertedVersions = info.insertedVersions) : InsertMatch ok lost ins c info' :=
  h.map (fun _ _ => rfl) (fun _ _ _ => id) (fun _ _ => id) hst hsame harr

theorem Matches.congr_rows (h : Matches ok lost ins del c info) (hins : ∀ i < c, ins' i = ins i)
    (hdel : ∀ i < c, del' i = del i) : Matches ok lost ins' del' c info where
  inserted := h.inserted.map hins (fun _ _ _ => id) (fun _ _ => id) rfl rfl rfl
  deleted := by
    refine ⟨h.deleted.same, fun i => ?_, h.deleted.checked, fun hst i hi => ?_⟩
    · rw [h.deleted.versions]
      split
      · next hi => rw [hdel i hi]
      · rfl
    · rw [hdel i hi, hins i hi]
      exact h.deleted.notDeleted hst i hi

theorem Matches.mono {ok' : Stamp → Nat → Prop} {lost' : Stamp → Prop}
    (h : Matches ok lost ins del c info) (hok : ∀ i < c, ∀ w, ok (ins i) w → ok' (ins i) w)
    (hlost : ∀ i < c, lost (ins i) → lost' (ins i)) : Matches ok' lost' ins del c info where
  inserted := h.inserted.map (fun _ _ => rfl) hok hlost rfl rfl rfl
  deleted := ⟨h.deleted.same, h.deleted.versions, h.deleted.checked, fun hst i hi =>
    (h.deleted.notDeleted hst i hi).imp_right (hlost i hi)⟩

/-! ## Reading -/

theorem InsertMatch.isInserted (h : InsertMatch exactVersion (fun _ => False) ins c info)
    (hi : i < c) (hv : (ins i).Valid) (hid : startTransactionID ≤ t.id)
    (hts : t.startTS < startTransactionID) :
    info.isInserted t i = some (decide ((ins i).VisibleTo t)) := by
  cases h with
  | noInserted _ _ _ hrows => exact (hrows i hi).elim
  | alwaysInserted hst _ _ hrows => simp [VectorVersionInfo.isInserted, hst, hrows i hi, Stamp.VisibleTo]
  | same hst hsame _ _ hrows =>
    have hver : info.sameInsertionVersion = (ins i).version := (hrows i hi).1
    simp only [VectorVersionInfo.isInserted, hst, if_pos hsame, map_some]
    simp [hver, hv.visibleTo_iff hid hts]
  | array versions hst hsame harr _ _ hrows =>
    have hver : versions i = (ins i).version := (hrows i hi).1
    rw [VectorVersionInfo.isInserted, hst]
    simp only [ne_eq, hsame, not_true_eq_false, if_false, harr, map_some, hver, hv.visibleTo_iff hid hts]

/-- A vector with rows has insertions. -/
theorem InsertMatch.ne_noInserted (h : InsertMatch ok (fun _ => False) ins c info) (hi : i < c) :
    info.insertionStatus ≠ .noInserted := by
  intro hst
  cases h with
  | noInserted _ _ _ hrows => exact hrows i hi
  | alwaysInserted hst' => simp [hst'] at hst
  | same hst' => simp [hst'] at hst
  | array _ hst' => simp [hst'] at hst

/-- A transaction finds the deletions that it sees. There are none after the last row. -/
theorem DeleteMatch.isDeleted (h : DeleteMatch (fun _ => False) ins del c info)
    (hv : i < c → ∀ s ∈ del i, s.Valid) (hid : startTransactionID ≤ t.id)
    (hinv : t.id < invalidTransaction) (hts : t.startTS < startTransactionID) :
    info.isDeleted t i = some (decide (i < c ∧ ∃ s ∈ del i, s.VisibleTo t)) := by
  have hver := h.versions i
  cases hst : info.deletionStatus with
  | noDeleted =>
    have hnone (hi : i < c) : del i = none := (h.notDeleted hst i hi).resolve_right id
    by_cases hi : i < c
    · simp [VectorVersionInfo.isDeleted, hst, hnone hi]
    · simp [VectorVersionInfo.isDeleted, hst, hi]
  | checkVersion =>
    obtain ⟨versions, harr⟩ := isSome_iff_exists.mp (h.checked hst)
    rw [harr, getD_some] at hver
    rw [VectorVersionInfo.isDeleted, hst]
    simp only [h.same, ne_eq, not_true_eq_false, if_false, harr, map_some, hver]
    have hfalse : ¬ (invalidTransaction = t.id ∨ invalidTransaction ≤ t.startTS) := by omega
    by_cases hi : i < c
    · cases hd : del i with
      | none => simpa [deletionVersion] using hfalse
      | some s => simp [hi, deletionVersion, (hv hi s hd).visibleTo_iff hid hts]
    · simpa [hi] using hfalse

theorem Matches.isSelected (h : Exact ins del c info) (hi : i < c) (hins : (ins i).Valid)
    (hdel : ∀ s ∈ del i, s.Valid) (hid : startTransactionID ≤ t.id) (hinv : t.id < invalidTransaction)
    (hts : t.startTS < startTransactionID) :
    info.isSelected t i = some (decide ((ins i).VisibleTo t ∧ ∀ s ∈ del i, ¬ s.VisibleTo t)) := by
  have hI := h.inserted.isInserted hi hins hid hts
  have hD := h.deleted.isDeleted (fun _ => hdel) hid hinv hts
  simp only [hi] at hD
  rw [VectorVersionInfo.isSelected, if_neg (h.inserted.ne_noInserted hi)]
  split
  · next hst =>
    simp only [isInserted, hst.2] at hI
    simp only [isDeleted, hst.1] at hD
    have hI : (ins i).VisibleTo t := by simpa using hI.symm
    have hD : ∀ s ∈ del i, ¬ s.VisibleTo t := by simpa using hD.symm
    rw [decide_eq_true ⟨hI, hD⟩]
  · rw [hI]
    by_cases hvis : (ins i).VisibleTo t
    · have hiff : (∀ s ∈ del i, ¬ s.VisibleTo t) ↔ ¬ ∃ s ∈ del i, s.VisibleTo t := by simp
      simp only [hvis, decide_true, hD, map_some, true_and, hiff, decide_not]
    · simp [hvis]

/-! ## Appending -/

section Append

variable {id startRow numRows : Nat}

theorem append_own (h : id = info.sameInsertionVersion) :
    info.append id startRow numRows = { info with insertionStatus := .checkVersion } := if_pos h

theorem append_first (hid : id ≠ invalidTransaction) (hsame : info.sameInsertionVersion = invalidTransaction)
    (harr : info.insertedVersions = none) : info.append id startRow numRows =
      { info with insertionStatus := .checkVersion, sameInsertionVersion := id } := by
  simp [append, hsame, harr, if_neg hid]

theorem append_alloc (hid : id ≠ info.sameInsertionVersion)
    (hsame : info.sameInsertionVersion ≠ invalidTransaction) (harr : info.insertedVersions = none) :
    info.append id startRow numRows = { info with
      insertionStatus := .checkVersion
      insertedVersions := some (setVersions
        (setVersions invalidVersions 0 startRow info.sameInsertionVersion) startRow numRows id)
      sameInsertionVersion := invalidTransaction } := by
  simp [append, harr, if_neg hid, if_neg hsame]

theorem append_array {versions : Nat → Nat} (hid : id ≠ info.sameInsertionVersion)
    (harr : info.insertedVersions = some versions) : info.append id startRow numRows = { info with
      insertionStatus := .checkVersion
      insertedVersions := some (setVersions versions startRow numRows id) } := by
  simp [append, harr, if_neg hid]

end Append

theorem DeleteMatch.append (h : DeleteMatch (fun _ => False) ins del c info)
    (n id : Nat) (hdel : info'.deletedVersions = info.deletedVersions)
    (hsame : info'.sameDeletionVersion = info.sameDeletionVersion)
    (hst : info'.deletionStatus = info.deletionStatus) :
    DeleteMatch (fun _ => False) (fun i => if i < c then ins i else .pending id)
      (fun i => if i < c then del i else none) (c + n) info' := by
  refine ⟨hsame.trans h.same, fun i => ?_, by rw [hst, hdel]; exact h.checked, fun hst' i _ => ?_⟩
  · rw [hdel, h.versions]
    by_cases hi : i < c
    · rw [if_pos hi, if_pos (by omega), if_pos hi]
    · rw [if_neg hi]
      split <;> rfl
  · by_cases hi : i < c
    · rw [if_pos hi]
      exact .inl ((h.notDeleted (hst ▸ hst') i hi).resolve_right fun hf => hf)
    · exact .inl (if_neg hi)

/-- A transaction appends rows to a vector, whose other rows are committed or its own. -/
theorem Matches.append (h : Exact ins del c info) {id n : Nat} (hid : (Stamp.pending id).Valid)
    (hn : 0 < n) (hins : ∀ i < c, ins i ≠ .checkpointed ∧ ((∃ ts, ins i = .committed ts) ∨ ins i = .pending id)) :
    Exact (fun i => if i < c then ins i else .pending id) (fun i => if i < c then del i else none)
      (c + n) (info.append id c n) := by
  have hne : id ≠ invalidTransaction := ne_of_lt hid.2
  -- the appended rows have the ID as their version
  have hrow {version : Nat → Nat} (hold : ∀ i < c, exactVersion (ins i) (version i) ∧ ins i ≠ .checkpointed)
      (hnew : ∀ i, c ≤ i → i < c + n → version i = id) (i : Nat) (hi : i < c + n) :
      exactVersion (if i < c then ins i else .pending id) (version i) ∧
        (if i < c then ins i else .pending id) ≠ .checkpointed := by
    by_cases hic : i < c
    · simpa only [if_pos hic] using hold i hic
    · simp only [if_neg hic]
      exact ⟨hnew i (by omega) hi, by simp⟩
  -- a vector whose rows are not checkpointed is empty if it needs no versions
  have hempty (hrows : ∀ i < c, False) (hsame : info.sameInsertionVersion = invalidTransaction)
      (harr : info.insertedVersions = none) :
      Exact (fun i => if i < c then ins i else .pending id) (fun i => if i < c then del i else none)
        (c + n) (info.append id c n) := by
    rw [append_first hne hsame harr]
    exact ⟨.same rfl hne harr (by omega) (hrow (fun i hi => (hrows i hi).elim) fun _ _ _ => rfl),
      h.deleted.append n id rfl rfl rfl⟩
  cases h.inserted with
  | noInserted hst hsame harr hrows => exact hempty hrows hsame harr
  | alwaysInserted hst hsame harr hrows =>
    exact hempty (fun i hi => (hins i hi).1 (hrows i hi)) hsame harr
  | same hst hsame harr hc hrows =>
    by_cases heq : id = info.sameInsertionVersion
    · rw [append_own heq]
      exact ⟨.same rfl hsame harr (by omega) (hrow hrows fun _ _ _ => heq.symm), h.deleted.append n id rfl rfl rfl⟩
    · have hcom : ∃ ts, ins 0 = .committed ts := (hins 0 hc).2.resolve_right fun hpend => by
        have hver : info.sameInsertionVersion = (ins 0).version := (hrows 0 hc).1
        rw [hpend] at hver
        exact heq hver.symm
      rw [append_alloc heq hsame harr]
      refine ⟨.array _ rfl rfl rfl (by omega) (by simpa [hc] using hcom)
        (hrow (fun i hi => ?_) fun i hi hin => ?_) fun i hi => ?_, h.deleted.append n id rfl rfl rfl⟩
      · simpa [setVersions, hi, show ¬ c ≤ i by omega] using hrows i hi
      · simp [setVersions, hi, hin]
      · simp [setVersions, show ¬ i < c + n by omega, show ¬ i < c by omega, invalidVersions]
  | array versions hst hsame harr hc hfirst hrows hend =>
    rw [append_array (hsame ▸ hne) harr]
    refine ⟨.array _ rfl hsame rfl (by omega) (by simpa [hc] using hfirst)
      (hrow (fun i hi => ?_) fun i hi hin => ?_) fun i hi => ?_, h.deleted.append n id rfl rfl rfl⟩
    · simpa [setVersions, show ¬ c ≤ i by omega] using hrows i hi
    · simp [setVersions, hi, hin]
    · simpa [setVersions, show ¬ i < c + n by omega] using hend i (by omega)

/-! ## Deleting -/

theorem DeleteMatch.update (h : DeleteMatch lost ins del c info) (hi : i < c) {d : Option Stamp}
    (hsame : info'.sameDeletionVersion = info.sameDeletionVersion)
    (harr : info'.deletedVersions = some (setVersions (info.deletedVersions.getD invalidVersions) i 1
      (deletionVersion d))) (hst : info'.deletionStatus = .checkVersion ∨
      (info'.deletionStatus = info.deletionStatus ∧ (d = none ∨ lost (ins i)))) :
    DeleteMatch lost ins (update del i d) c info' := by
  refine ⟨hsame.trans h.same, fun j => ?_, fun _ => by rw [harr]; rfl, fun hno j hj => ?_⟩
  · rw [harr, getD_some, setVersions, h.versions]
    by_cases hj : j = i
    · subst hj
      simp [hi]
    · rw [if_neg (by omega), update_of_ne hj]
  · rcases hst with hst | ⟨hst, hd⟩
    · rw [hno] at hst
      cases hst
    · by_cases hj' : j = i
      · subst hj'
        rwa [update_self]
      · rw [update_of_ne hj']
        exact h.notDeleted (hst ▸ hno) j hj

variable {id : Nat}

/-- `delete_`, when not all rows are deleted by one transaction. -/
theorem delete_eq (hsame : info.sameDeletionVersion = invalidTransaction)
    (hid : id ≠ invalidTransaction) : info.delete id i = let versions := info.deletedVersions.getD invalidVersions
      let marked := { info with
        deletionStatus := .checkVersion, deletedVersions := some versions }
      if versions i = id then (marked, .alreadyDeleted)
      else if versions i ≠ invalidTransaction then (marked, .conflict deleteConflict)
      else ({ marked with deletedVersions := some (setVersions versions i 1 id) }, .deleted) := by
  simp [delete, hsame, if_neg hid]

/-- `delete_` on a row of the vector. The deleting transaction is given as a stamp: a checkpoint
deletes as well. -/
theorem Matches.delete (h : Exact ins del c info) (hi : i < c) {s : Stamp} (hs : s.Valid)
    (hdel : ∀ d ∈ del i, d.Valid) :
    (del i = none ∧ (info.delete s.version i).2 = .deleted ∧
      Exact ins (update del i (some s)) c (info.delete s.version i).1) ∨
    ∃ d, del i = some d ∧ Exact ins del c (info.delete s.version i).1 ∧ (info.delete s.version i).2 =
        if d.version = s.version then .alreadyDeleted else .conflict deleteConflict := by
  have hne := hs.version_ne_invalid
  have hver := h.deleted.versions i
  rw [if_pos hi] at hver
  have hmarked : Exact ins del c { info with
      deletionStatus := .checkVersion
      deletedVersions := some (info.deletedVersions.getD invalidVersions) } :=
    ⟨h.inserted.congr rfl rfl rfl, h.deleted.same, h.deleted.versions, fun _ => rfl, by simp⟩
  rw [delete_eq h.deleted.same hne]
  simp only [hver]
  cases hd : del i with
  | none =>
    refine .inl ⟨rfl, ?_, ?_⟩
    · simp [deletionVersion, hne.symm]
    · simp only [deletionVersion, if_neg hne.symm, ne_eq]
      exact ⟨h.inserted.congr rfl rfl rfl, h.deleted.update hi rfl rfl (.inl rfl)⟩
  | some d =>
    have hdne := (hdel d hd).version_ne_invalid
    refine .inr ⟨d, rfl, ?_, ?_⟩
    · simp only [deletionVersion, ne_eq, hdne]
      split <;> exact hmarked
    · simp only [deletionVersion, ne_eq, hdne]
      split <;> rfl

/-! ## Committing -/

/-- While a transaction commits, its rows may carry the timestamp already. -/
def committing (id ts : Nat) (s : Stamp) (version : Nat) : Prop :=
  version = s.version ∨ (s = .pending id ∧ version = ts)

theorem Stamp.eq_pending {s : Stamp} (hs : s.Valid) (hid : startTransactionID ≤ id)
    (h : s.version = id) : s = .pending id := by
  cases s with
  | checkpointed =>
    have : startTransactionID = 2 ^ 63 := rfl
    simp only [Stamp.version] at h
    omega
  | committed ts =>
    have hs : ts < startTransactionID := hs
    simp only [Stamp.version] at h
    omega
  | pending id' => exact congrArg _ h

theorem Matches.setInsertCommitTS {id ts a n : Nat} (h : Matches (committing id ts) (fun _ => False) ins del c info)
    (hid : startTransactionID ≤ id) (hts : ts < startTransactionID)
    (hins : ∀ i < c, (ins i).Valid) (hn : 0 < n) (hac : a + n ≤ c)
    (hrange : ∀ i, a ≤ i → i < a + n → ins i = .pending id) :
    ∃ info', info.setInsertCommitTS ts a n = some info' ∧ Matches (committing id ts) (fun _ => False)
        (fun i => if a ≤ i ∧ i < a + n then .committed ts else ins i) del c info' := by
  have hpend := hrange a le_rfl (by omega)
  have htsne : ts ≠ invalidTransaction := by
    have := startTransactionID_lt_invalidTransaction
    omega
  have hdelm (info' : VectorVersionInfo) (h₁ : info'.sameDeletionVersion = info.sameDeletionVersion)
      (h₂ : info'.deletedVersions = info.deletedVersions)
      (h₃ : info'.deletionStatus = info.deletionStatus) : DeleteMatch (fun _ => False)
        (fun i => if a ≤ i ∧ i < a + n then .committed ts else ins i) del c info' :=
    ⟨h₁.trans h.deleted.same, h₂ ▸ h.deleted.versions, h₃ ▸ h₂ ▸ h.deleted.checked,
      fun hno i hi => .inl ((h.deleted.notDeleted (h₃ ▸ hno) i hi).resolve_right fun hf => hf)⟩
  cases h.inserted with
  | noInserted _ _ _ hrows => exact (hrows a (by omega)).elim
  | alwaysInserted _ _ _ hrows =>
    have := hrows a (by omega)
    rw [hpend] at this
    cases this
  | same hst hsame harr hc hrows =>
    refine ⟨_, if_pos hsame, .same hst htsne harr hc fun i hi => ?_, hdelm _ rfl rfl rfl⟩
    by_cases hr : a ≤ i ∧ i < a + n
    · simp only [if_pos hr]
      exact ⟨.inl rfl, by simp⟩
    · simp only [if_neg hr]
      refine ⟨?_, (hrows i hi).2⟩
      -- the rows of the vector share their version with row `a`
      rcases (hrows i hi).1 with hver | hpend'
      · rcases (hrows a (by omega)).1 with hver' | ⟨-, hver'⟩
        · rw [hpend] at hver'
          exact .inr ⟨Stamp.eq_pending (hins i hi) hid (hver.symm.trans hver'), rfl⟩
        · exact .inl (hver'.symm.trans hver)
      · exact .inr ⟨hpend'.1, rfl⟩
  | array versions hst hsame harr hc hfirst hrows hend =>
    refine ⟨{ info with insertedVersions := some (setVersions versions a n ts) }, ?_,
      .array _ hst hsame rfl hc ?_ (fun i hi => ?_) fun i hi => ?_, hdelm _ rfl rfl rfl⟩
    · rw [VectorVersionInfo.setInsertCommitTS, if_neg (not_not.mpr hsame), harr, map_some]
    · split
      · exact ⟨ts, rfl⟩
      · exact hfirst
    · by_cases hr : a ≤ i ∧ i < a + n
      · simp only [if_pos hr, setVersions]
        exact ⟨.inl rfl, by simp⟩
      · simpa only [if_neg hr, setVersions] using hrows i hi
    · rw [setVersions, if_neg (by omega), hend i hi]

theorem Matches.setDeleteCommitTS {id ts : Nat} (h : Matches ok (fun _ => False) ins del c info)
    (hi : i < c) (hdel : del i = some (.pending id)) :
    ∃ info', info.setDeleteCommitTS ts i 1 = some info' ∧
      Matches ok (fun _ => False) ins (update del i (some (.committed ts))) c info' := by
  cases hst : info.deletionStatus with
  | noDeleted =>
    rcases h.deleted.notDeleted hst i hi with hnone | hf
    · rw [hdel] at hnone
      cases hnone
    · exact hf.elim
  | checkVersion =>
    obtain ⟨versions, harr⟩ := isSome_iff_exists.mp (h.deleted.checked hst)
    refine ⟨{ info with deletedVersions := some (setVersions versions i 1 ts) }, ?_,
      h.inserted.congr rfl rfl rfl, h.deleted.update hi rfl (by rw [harr]; rfl) (.inl hst)⟩
    rw [VectorVersionInfo.setDeleteCommitTS, if_neg (not_not.mpr h.deleted.same), harr, map_some]

/-! ## Rolling back -/

variable {versions : Nat → Nat}

theorem freeIfInvalid_of_any (h : hasAnyVersion versions) : freeIfInvalid versions = some versions := if_pos h

theorem freeIfInvalid_of_not_any (h : ¬ hasAnyVersion versions) : freeIfInvalid versions = none := if_neg h

/-- A vector without an array of insertions is cleared. -/
theorem rollbackInsertions_none {a n : Nat} (harr : info.insertedVersions = none) :
    info.rollbackInsertions a n = { info with
      sameInsertionVersion := invalidTransaction
      insertionStatus := .noInserted
      deletionStatus := .noDeleted } := by
  by_cases hsame : info.sameInsertionVersion = invalidTransaction
  · rw [rollbackInsertions, if_neg (not_not.mpr hsame), harr, bind_none, clearIfNotInserted, ← hsame]
  · rw [rollbackInsertions, if_pos hsame, clearIfNotInserted, harr]

/-- The versions of the rows are cleared if others remain. -/
theorem rollbackInsertions_some {a n : Nat} (hsame : info.sameInsertionVersion = invalidTransaction)
    (harr : info.insertedVersions = some versions)
    (hany : hasAnyVersion (setVersions versions a n invalidTransaction)) :
    info.rollbackInsertions a n = { info with
      insertedVersions := some (setVersions versions a n invalidTransaction) } := by
  rw [rollbackInsertions, if_neg (not_not.mpr hsame), harr, bind_some, freeIfInvalid_of_any hany, clearIfNotInserted]

/-- The rows from `a` on are rolled back. The other rows of a vector that the transaction has filled
alone may count as not inserted from then on. -/
theorem Matches.rollbackInsertions {id a n : Nat} (h : Matches exactVersion (· = .pending id) ins del (a + n) info)
    (hid : startTransactionID ≤ id) (hins : ∀ i < a + n, (ins i).Valid) (hn : 0 < n)
    (hrange : ∀ i, a ≤ i → i < a + n → ins i = .pending id ∧ del i = none) :
    Matches exactVersion (· = .pending id) ins del a (info.rollbackInsertions a n) := by
  have hpend := (hrange a le_rfl (by omega)).1
  have hversions (i : Nat) : info.deletedVersions.getD invalidVersions i =
      if i < a then deletionVersion (del i) else invalidTransaction := by
    rw [h.deleted.versions]
    by_cases hi : i < a
    · rw [if_pos (by omega), if_pos hi]
    · by_cases hi' : i < a + n
      · rw [if_pos hi', if_neg hi, (hrange i (by omega) hi').2, deletionVersion]
      · rw [if_neg hi', if_neg hi]
  -- a vector whose rows are all of the transaction
  have hclear (harr : info.insertedVersions = none) (hrows : ∀ i < a, ins i = .pending id) :
      Matches exactVersion (· = .pending id) ins del a (info.rollbackInsertions a n) := by
    rw [rollbackInsertions_none harr]
    exact ⟨.noInserted rfl rfl harr hrows, ⟨h.deleted.same, hversions, by simp, fun _ i hi => .inr (hrows i hi)⟩⟩
  cases h.inserted with
  | noInserted _ _ harr hrows => exact hclear harr fun i hi => hrows i (by omega)
  | alwaysInserted _ _ _ hrows =>
    have := hrows a (by omega)
    rw [hpend] at this
    cases this
  | same _ _ harr _ hrows =>
    refine hclear harr fun i hi => Stamp.eq_pending (hins i (by omega)) hid ?_
    have hver : info.sameInsertionVersion = (ins i).version := (hrows i (by omega)).1
    have hver' : info.sameInsertionVersion = (ins a).version := (hrows a (by omega)).1
    rw [hpend] at hver'
    exact hver.symm.trans hver'
  | array versions hst hsame harr hc hfirst hrows hend =>
    obtain ⟨ts, hfirst⟩ := hfirst
    have ha : 0 < a := by
      refine pos_of_ne_zero fun ha => ?_
      subst ha
      rw [hpend] at hfirst
      cases hfirst
    have hver : versions 0 = (ins 0).version := (hrows 0 hc).1
    have hany : hasAnyVersion (setVersions versions a n invalidTransaction) := by
      refine ⟨0, by decide, ?_⟩
      rw [setVersions, if_neg (by omega), hver]
      exact (hins 0 hc).version_ne_invalid
    rw [rollbackInsertions_some hsame harr hany]
    refine ⟨.array _ hst hsame rfl ha ⟨ts, hfirst⟩ (fun i hi => ?_) fun i hi => ?_,
      ⟨h.deleted.same, hversions, h.deleted.checked, fun hno i hi =>
        h.deleted.notDeleted hno i (by omega)⟩⟩
    · rw [setVersions, if_neg (by omega)]
      exact hrows i (by omega)
    · rw [setVersions]
      split
      · rfl
      · exact hend i (by omega)

theorem Matches.rollbackDeletions (h : Matches ok lost ins del c info)
    (hc : c ≤ defaultVectorCapacity) (hi : i < c) (hdel : del i = some (.pending id))
    (hid : (Stamp.pending id).Valid) (hval : ∀ j < c, ∀ d ∈ del j, d.Valid) :
    Matches ok lost ins (update del i none) c (info.rollbackDeletions i 1) := by
  have hver := h.deleted.versions i
  rw [if_pos hi, hdel] at hver
  cases harr : info.deletedVersions with
  | none =>
    rw [harr] at hver
    exact absurd hver hid.version_ne_invalid.symm
  | some versions =>
    by_cases hany : hasAnyVersion (setVersions versions i 1 invalidTransaction)
    · have heq : info.rollbackDeletions i 1 = { info with
          deletedVersions := some (setVersions versions i 1 invalidTransaction) } := by
        rw [VectorVersionInfo.rollbackDeletions, if_neg (not_not.mpr h.deleted.same), harr,
          bind_some, freeIfInvalid_of_any hany, clearIfNotDeleted]
      rw [heq]
      refine ⟨h.inserted.congr rfl rfl rfl, h.deleted.update hi rfl ?_ (.inr ⟨rfl, .inl rfl⟩)⟩
      rw [harr]
      rfl
    · have heq : info.rollbackDeletions i 1 = { info with
          deletedVersions := none, deletionStatus := .noDeleted } := by
        rw [VectorVersionInfo.rollbackDeletions, if_neg (not_not.mpr h.deleted.same), harr,
          bind_some, freeIfInvalid_of_not_any hany, clearIfNotDeleted]
      have hinv (j : Nat) (hj : j < c) : deletionVersion (update del i none j) =
          invalidTransaction := by
        have hset : setVersions versions i 1 invalidTransaction j = invalidTransaction := by
          by_contra hne
          exact hany ⟨j, by omega, hne⟩
        have hj' := h.deleted.versions j
        rw [harr, if_pos hj] at hj'
        by_cases hji : j = i
        · rw [hji, update_self, deletionVersion]
        · rw [update_of_ne hji, ← hj']
          rwa [setVersions, if_neg (by omega)] at hset
      rw [heq]
      refine ⟨h.inserted.congr rfl rfl rfl, ⟨h.deleted.same, fun j => ?_, by simp, fun _ j hj => ?_⟩⟩
      · by_cases hj : j < c
        · rw [if_pos hj, hinv j hj]
          rfl
        · rw [if_neg hj]
          rfl
      · have hj' := hinv j hj
        by_cases hji : j = i
        · exact .inl (by rw [hji, update_self])
        · rw [update_of_ne hji] at hj' ⊢
          cases hd : del j with
          | none => exact .inl rfl
          | some d =>
            rw [hd] at hj'
            exact absurd hj' (hval j hj d hd).version_ne_invalid

end VectorVersionInfo
end CycleJoin
