import CycleJoin.Storage.VersionInfo.Vector

/-!
# The versions of a chunked node group

The lemmas of `Storage.VersionInfo.Vector` for all vectors of a group. An operation on a range of rows
goes through the vectors that the range meets.

* `onVectors_spec`: what such an operation leaves in each vector.
* `GroupMatches`: the versions of a group stand for its log.
* `GroupMatches.append`, `.delete`, `.commitInsert`, …: the operations keep it.
-/

namespace CycleJoin

open ChunkedVersions VersionInfo VectorVersionInfo Function Option

theorem defaultVectorCapacity_pos : 0 < defaultVectorCapacity := by decide

def rowsInVector (numRows v : Nat) : Nat :=
  min defaultVectorCapacity (numRows - v * defaultVectorCapacity)

/-- Row `i` of a vector. -/
def rowOf (v i : Nat) : Nat := v * defaultVectorCapacity + i

theorem rowOf_div_mod (r : Nat) : rowOf (r / defaultVectorCapacity) (r % defaultVectorCapacity) = r := by
  rw [rowOf, mul_comm]
  exact Nat.div_add_mod r defaultVectorCapacity

theorem rowOf_lt_iff {numRows v i : Nat} (hi : i < defaultVectorCapacity) :
    rowOf v i < numRows ↔ i < rowsInVector numRows v := by
  rw [rowOf, rowsInVector]
  omega

theorem rowsInVector_le (numRows v : Nat) : rowsInVector numRows v ≤ defaultVectorCapacity := Nat.min_le_left _ _

theorem lt_of_lt_rowsInVector {numRows v i : Nat} (hi : i < rowsInVector numRows v) :
    i < defaultVectorCapacity := hi.trans_le (rowsInVector_le _ _)

theorem mod_lt_rowsInVector {numRows r : Nat} (hr : r < numRows) :
    r % defaultVectorCapacity < rowsInVector numRows (r / defaultVectorCapacity) := by
  rw [← rowOf_lt_iff (Nat.mod_lt r defaultVectorCapacity_pos), rowOf_div_mod]
  exact hr

theorem rowOf_div {v i : Nat} (hi : i < defaultVectorCapacity) : rowOf v i / defaultVectorCapacity = v := by
  rw [rowOf, mul_comm, Nat.mul_add_div defaultVectorCapacity_pos, Nat.div_eq_of_lt hi, add_zero]

theorem rowOf_mod {v i : Nat} (hi : i < defaultVectorCapacity) : rowOf v i % defaultVectorCapacity = i := by
  rw [rowOf, mul_comm, Nat.mul_add_mod, Nat.mod_eq_of_lt hi]

theorem rowOf_injective {v w i j : Nat} (hi : i < defaultVectorCapacity)
    (hj : j < defaultVectorCapacity) (h : rowOf v i = rowOf w j) : v = w ∧ i = j := by
  rw [← rowOf_div (v := v) hi, ← rowOf_div (v := w) hj, h, ← rowOf_mod (v := v) hi, h, rowOf_mod hj]
  exact ⟨rfl, rfl⟩

/-! ## The part of a range of rows in a vector -/

section Ranges

variable {startRow numRows v : Nat}

/-- The vector meets the rows. -/
def Meets (startRow numRows v : Nat) : Prop :=
  startRow / defaultVectorCapacity ≤ v ∧ v ≤ (startRow + numRows - 1) / defaultVectorCapacity

instance : Decidable (Meets startRow numRows v) := inferInstanceAs (Decidable (_ ∧ _))

/-- The first row of the range in the vector. -/
abbrev firstIn (startRow v : Nat) : Nat := startRowInVector startRow v

/-- The number of rows of the range in the vector. -/
abbrev numIn (startRow numRows v : Nat) : Nat :=
  endRowInVector (startRow + numRows - 1) v - startRowInVector startRow v + 1

theorem defaultVectorCapacity_eq : defaultVectorCapacity = 2048 := rfl

theorem rowOf_firstIn (hv : Meets startRow numRows v) : v * 2048 + firstIn startRow v = max startRow (v * 2048) := by
  have hv := hv.1
  rw [defaultVectorCapacity_eq] at hv
  rw [firstIn, startRowInVector, defaultVectorCapacity_eq]
  split <;> omega

theorem rowOf_endRowInVector (hv : Meets startRow numRows v) : v * 2048 + endRowInVector (startRow + numRows - 1) v =
      min (startRow + numRows - 1) (v * 2048 + 2047) := by
  have hv := hv.2
  rw [defaultVectorCapacity_eq] at hv
  rw [endRowInVector, defaultVectorCapacity_eq]
  split <;> omega

theorem range_arith {w a b s n : Nat} (hn : 0 < n) (h1 : w + a = max s w)
    (h2 : w + b = min (s + n - 1) (w + 2047)) (h3 : s ≤ w + 2047) (h4 : w ≤ s + n - 1) :
    w + a + (b - a + 1) = min (s + n) (w + 2048) := by
  omega

/-- The rows of the range in the vector are those from `firstIn` on. -/
theorem rowOf_numIn (hn : 0 < numRows) (hv : Meets startRow numRows v) :
    v * 2048 + firstIn startRow v + numIn startRow numRows v = min (startRow + numRows) (v * 2048 + 2048) := by
  have h1 := rowOf_firstIn hv
  have h2 := rowOf_endRowInVector hv
  obtain ⟨h3, h4⟩ := hv
  rw [defaultVectorCapacity_eq] at h3 h4
  exact range_arith hn h1 h2 (by omega) (by omega)

theorem firstIn_lt (startRow v : Nat) : firstIn startRow v < 2048 := by
  rw [firstIn, startRowInVector]
  split
  · exact Nat.mod_lt _ defaultVectorCapacity_pos
  · exact defaultVectorCapacity_pos

theorem mem_range_iff (hn : 0 < numRows) (hv : Meets startRow numRows v) {i : Nat} (hi : i < defaultVectorCapacity) :
    (firstIn startRow v ≤ i ∧ i < firstIn startRow v + numIn startRow numRows v) ↔
      (startRow ≤ rowOf v i ∧ rowOf v i < startRow + numRows) := by
  have h1 := rowOf_firstIn hv
  have h2 := rowOf_numIn hn hv
  rw [defaultVectorCapacity_eq] at hi
  rw [rowOf, defaultVectorCapacity_eq]
  omega

theorem meets_of_mem {i : Nat} (hi : i < defaultVectorCapacity) (hstart : startRow ≤ rowOf v i)
    (hend : rowOf v i < startRow + numRows) : Meets startRow numRows v := by
  simp only [Meets, rowOf, defaultVectorCapacity_eq] at *
  omega

theorem numIn_pos : 0 < numIn startRow numRows v := Nat.succ_pos _

theorem firstIn_add_numIn_le (hn : 0 < numRows) (hv : Meets startRow numRows v) :
    firstIn startRow v + numIn startRow numRows v ≤ defaultVectorCapacity := by
  have h2 := rowOf_numIn hn hv
  rw [defaultVectorCapacity_eq]
  omega

theorem rowsInVector_start (hv : Meets startRow numRows v) : rowsInVector startRow v = firstIn startRow v := by
  have h1 := rowOf_firstIn hv
  have hlt := firstIn_lt startRow v
  rw [rowsInVector, defaultVectorCapacity_eq]
  omega

theorem rowsInVector_end (hn : 0 < numRows) (hv : Meets startRow numRows v) :
    rowsInVector (startRow + numRows) v = firstIn startRow v + numIn startRow numRows v := by
  have h2 := rowOf_numIn hn hv
  rw [rowsInVector, defaultVectorCapacity_eq]
  omega

theorem rowsInVector_of_not_meets (hn : 0 < numRows) (hv : ¬ Meets startRow numRows v) :
    rowsInVector (startRow + numRows) v = rowsInVector startRow v := by
  simp only [Meets, rowsInVector, defaultVectorCapacity_eq] at *
  omega

end Ranges

/-! ## Operations on a range of rows -/

namespace VersionInfo

variable (f : Nat → Nat → VectorVersionInfo → Option VectorVersionInfo)

theorem onVectorsFrom_spec (startRow endRow count w : Nat) (info : VersionInfo) (g : Nat → VectorVersionInfo)
    (hf : ∀ v, w ≤ v → v < w + count → f (startRowInVector startRow v)
        (endRowInVector endRow v - startRowInVector startRow v + 1)
        (info.getOrCreateVersionInfo v) = some (g v)) :
    onVectorsFrom f startRow endRow count w info =
      some ⟨fun v => if w ≤ v ∧ v < w + count then some (g v) else info.vectorsInfo v⟩ := by
  induction count generalizing w info with
  | zero =>
    simp only [onVectorsFrom, some.injEq]
    obtain ⟨vectorsInfo⟩ := info
    congr 1
    funext v
    rw [if_neg (by omega)]
  | succ count ih =>
    simp only [onVectorsFrom]
    rw [hf w le_rfl (by omega)]
    simp only
    rw [ih (w + 1) (info.set w (g w)) fun v hv hv' => by
      have hne : v ≠ w := by omega
      have heq : (info.set w (g w)).getOrCreateVersionInfo v = info.getOrCreateVersionInfo v := by
        simp [set, getOrCreateVersionInfo, hne]
      rw [heq]
      exact hf v (by omega) (by omega)]
    congr 2
    funext v
    by_cases hv : v = w
    · subst hv
      simp [set]
    · by_cases hv' : w + 1 ≤ v ∧ v < w + 1 + count
      · rw [if_pos hv', if_pos (by omega)]
      · rw [if_neg hv', if_neg (by omega)]
        simp [set, hv]

theorem onVectors_spec (startRow : Nat) {numRows : Nat} (hn : 0 < numRows) (info : VersionInfo)
    (g : Nat → VectorVersionInfo) (hf : ∀ v, Meets startRow numRows v →
      f (firstIn startRow v) (numIn startRow numRows v) (info.getOrCreateVersionInfo v) = some (g v)) :
    onVectors f startRow numRows info =
      some ⟨fun v => if Meets startRow numRows v then some (g v) else info.vectorsInfo v⟩ := by
  rw [onVectors, if_neg (by omega), onVectorsFrom_spec f _ _ _ _ info g fun v hv hv' =>
    hf v ⟨hv, by omega⟩]
  congr 2
  funext v
  refine if_congr ?_ rfl rfl
  rw [Meets]
  omega

end VersionInfo

/-! ## The versions of a group stand for its log -/

/-- The versions of a group, when its only changes are to the versions. -/
def ChunkedVersions.SameShape (group group' : ChunkedVersions) : Prop :=
  group'.residencyState = group.residencyState ∧ group'.capacity = group.capacity

def ChunkedVersions.entry (group : ChunkedVersions) (v : Nat) : Option VectorVersionInfo :=
  group.versionInfo.bind (·.vectorsInfo v)

theorem ChunkedVersions.entry_eq (group : ChunkedVersions) (v : Nat) :
    (group.versionInfo.getD .new).vectorsInfo v = group.entry v := by
  rw [entry]
  cases group.versionInfo <;> rfl

/-- What the entry of a vector says. A vector without one holds checkpointed rows. -/
def EntryMatches (ok : Stamp → Nat → Prop) (lost : Stamp → Prop) (log : RowLog) (v : Nat) :
    Option VectorVersionInfo → Prop
  | none => ∀ i < rowsInVector log.numRows v,
      log.insertedBy (rowOf v i) = .checkpointed ∧ log.deletedBy (rowOf v i) = none
  | some info => info.Matches ok lost (fun i => log.insertedBy (rowOf v i))
      (fun i => log.deletedBy (rowOf v i)) (rowsInVector log.numRows v)

/-- The versions of a group stand for its log. -/
structure GroupMatches (ok : Stamp → Nat → Prop) (lost : Stamp → Prop) (log : RowLog)
    (group : ChunkedVersions) : Prop where
  numRows : group.numRows = log.numRows
  entries : ∀ v, EntryMatches ok lost log v (group.entry v)

abbrev EntryExact (log : RowLog) (v : Nat) (entry : Option VectorVersionInfo) : Prop :=
  EntryMatches exactVersion (fun _ => False) log v entry

/-- The versions of a group between transactions. -/
abbrev GroupExact (log : RowLog) (group : ChunkedVersions) : Prop :=
  GroupMatches exactVersion (fun _ => False) log group

/-- The stamps of a log are valid. -/
structure RowLog.Valid (log : RowLog) : Prop where
  inserted : ∀ r < log.numRows, (log.insertedBy r).Valid
  deleted : ∀ r < log.numRows, ∀ s ∈ log.deletedBy r, s.Valid

variable {ok : Stamp → Nat → Prop} {lost : Stamp → Prop} {log log' : RowLog}
  {group : ChunkedVersions} {v : Nat}

theorem EntryMatches.vector {info : VectorVersionInfo} (h : EntryMatches ok lost log v (some info)) :
    info.Matches ok lost (fun i => log.insertedBy (rowOf v i)) (fun i => log.deletedBy (rowOf v i))
      (rowsInVector log.numRows v) := h

theorem EntryMatches.congr {entry : Option VectorVersionInfo} (h : EntryMatches ok lost log v entry)
    (hnum : rowsInVector log'.numRows v = rowsInVector log.numRows v)
    (hins : ∀ i < rowsInVector log.numRows v, log'.insertedBy (rowOf v i) = log.insertedBy (rowOf v i))
    (hdel : ∀ i < rowsInVector log.numRows v, log'.deletedBy (rowOf v i) = log.deletedBy (rowOf v i)) :
    EntryMatches ok lost log' v entry := by
  cases entry with
  | none =>
    intro i hi
    rw [hnum] at hi
    rw [hins i hi, hdel i hi]
    exact h i hi
  | some info =>
    have h := h.vector.congr_rows hins hdel
    rw [← hnum] at h
    exact h

theorem rowOf_lt {numRows i : Nat} (hi : i < rowsInVector numRows v) : rowOf v i < numRows :=
  (rowOf_lt_iff (lt_of_lt_rowsInVector hi)).mpr hi

/-- A transaction selects the rows that it sees. -/
theorem GroupMatches.isSelected (h : GroupExact log group) (hval : log.Valid) {t : Transaction}
    {r : Nat} (hr : r < log.numRows) (hid : startTransactionID ≤ t.id) (hinv : t.id < invalidTransaction)
    (hts : t.startTS < startTransactionID) : group.isSelected t r = some (decide (log.Visible t r)) := by
  have hentry := h.entries (r / defaultVectorCapacity)
  have hmod := mod_lt_rowsInVector hr
  have hselect : group.isSelected t r = (group.entry (r / defaultVectorCapacity)).elim (some true)
      fun vector => vector.isSelected t (r % defaultVectorCapacity) := by
    rw [ChunkedVersions.isSelected, entry]
    cases group.versionInfo with
    | none => rfl
    | some info =>
      simp only [VersionInfo.isSelected, Option.bind_some]
      cases info.vectorsInfo (r / defaultVectorCapacity) <;> rfl
  rw [hselect]
  cases he : group.entry (r / defaultVectorCapacity) with
  | none =>
    rw [he] at hentry
    have hrow := hentry _ hmod
    rw [rowOf_div_mod] at hrow
    simp [RowLog.Visible, hrow, Stamp.VisibleTo]
  | some info =>
    rw [he] at hentry
    have hsel := Matches.isSelected (t := t) hentry hmod (by rw [rowOf_div_mod]; exact hval.inserted r hr)
      (by rw [rowOf_div_mod]; exact hval.deleted r hr) hid hinv hts
    rw [rowOf_div_mod] at hsel
    exact hsel

/-- An operation on a range of rows, from what it does to each vector. -/
theorem onVectors_matches (ok : Stamp → Nat → Prop) (lost : Stamp → Prop) (log : RowLog)
    (f : Nat → Nat → VectorVersionInfo → Option VectorVersionInfo)
    (startRow : Nat) {numRows : Nat} (hn : 0 < numRows) (info : VersionInfo)
    (hmeet : ∀ v, Meets startRow numRows v → ∃ vector,
      f (firstIn startRow v) (numIn startRow numRows v) (info.getOrCreateVersionInfo v) = some vector ∧
        EntryMatches ok lost log v (some vector))
    (hother : ∀ v, ¬ Meets startRow numRows v → EntryMatches ok lost log v (info.vectorsInfo v)) :
    ∃ info', onVectors f startRow numRows info = some info' ∧
      ∀ v, EntryMatches ok lost log v (info'.vectorsInfo v) := by
  have hex (v : Nat) : ∃ vector, Meets startRow numRows v →
      f (firstIn startRow v) (numIn startRow numRows v) (info.getOrCreateVersionInfo v) = some vector ∧
        EntryMatches ok lost log v (some vector) := by
    by_cases hv : Meets startRow numRows v
    · exact (hmeet v hv).imp fun vector h _ => h
    · exact ⟨.new, fun h => absurd h hv⟩
  choose g hg using hex
  refine ⟨_, onVectors_spec f startRow hn info g fun v hv => (hg v hv).1, fun v => ?_⟩
  by_cases hv : Meets startRow numRows v
  · simp only [if_pos hv]
    exact (hg v hv).2
  · simp only [if_neg hv]
    exact hother v hv

/-! ## Appending -/

theorem EntryMatches.getD_new {entry : Option VectorVersionInfo}
    (h : EntryExact log v entry) (hno : ∀ r < log.numRows, log.insertedBy r ≠ .checkpointed) :
    EntryExact log v (some (entry.getD .new)) := by
  cases entry with
  | none =>
    have hzero : rowsInVector log.numRows v = 0 := Nat.eq_zero_of_not_pos fun hpos =>
      hno _ (rowOf_lt hpos) (h 0 hpos).1
    rw [EntryExact, EntryMatches, hzero]
    exact exact_new _ _
  | some info => exact h

theorem GroupMatches.append (h : GroupExact log group) {id n : Nat} (hid : (Stamp.pending id).Valid)
    (hn : 0 < n) (hcap : group.numRows < group.capacity)
    (hins : ∀ r < log.numRows, log.insertedBy r ≠ .checkpointed ∧
      ((∃ ts, log.insertedBy r = .committed ts) ∨ log.insertedBy r = .pending id)) :
    ∃ info num, 0 < num ∧ group.append id n =
        some ({ group with versionInfo := some info, numRows := group.numRows + num }, num) ∧
      GroupExact (log.append id num)
        { group with versionInfo := some info, numRows := group.numRows + num } := by
  obtain ⟨num, hnum⟩ : ∃ num, num = min n (group.capacity - group.numRows) := ⟨_, rfl⟩
  have hpos : 0 < num := by omega
  have hrows := h.numRows
  -- the rows before the append are the same in the new log
  have hold (r : Nat) (hr : r < log.numRows) : (log.append id num).insertedBy r = log.insertedBy r ∧
      (log.append id num).deletedBy r = log.deletedBy r := ⟨if_pos hr, if_pos hr⟩
  have hmeet (v : Nat) (hv : Meets log.numRows num v) : EntryExact
      (log.append id num) v (some (((group.entry v).getD .new).append id (firstIn log.numRows v)
        (numIn log.numRows num v))) := by
    have hv' := (h.entries v).getD_new fun r hr => (hins r hr).1
    have hfirst := rowsInVector_start hv
    have hlast := rowsInVector_end hpos hv
    rw [EntryExact, EntryMatches, hfirst] at hv'
    have happ := hv'.append (n := numIn log.numRows num v) hid numIn_pos fun i hi =>
      hins _ (rowOf_lt (hfirst ▸ hi))
    rw [← hlast] at happ
    refine happ.congr_rows (fun i hi => ?_) fun i hi => ?_
    all_goals
      have hlt : rowOf v i < log.numRows ↔ i < firstIn log.numRows v := by
        rw [← hfirst]
        exact rowOf_lt_iff (lt_of_lt_rowsInVector hi)
      exact if_congr hlt rfl rfl
  obtain ⟨info, hinfo, hmatch⟩ := onVectors_matches exactVersion (fun _ => False)
    (log.append id num) (fun start num vector => some (vector.append id start num))
    log.numRows hpos (group.versionInfo.getD .new)
    (fun v hv => ⟨_, rfl, by
      rw [getOrCreateVersionInfo, entry_eq]
      exact hmeet v hv⟩)
    fun v hv => by
      rw [entry_eq]
      exact (h.entries v).congr (rowsInVector_of_not_meets hpos hv)
        (fun i hi => (hold _ (rowOf_lt hi)).1) fun i hi => (hold _ (rowOf_lt hi)).2
  refine ⟨info, num, hpos, ?_, ?_, hmatch⟩
  · rw [ChunkedVersions.append, ← hnum, VersionInfo.append, hrows, hinfo, map_some]
  · rw [RowLog.append, hrows]

/-! ## Operations on one row -/

section OneRow

variable {r : Nat}

section
variable (f : Nat → Option Stamp) (d : Option Stamp) {i : Nat} (hi : i < defaultVectorCapacity)
include hi

theorem update_rowOf : update f r d (rowOf (r / defaultVectorCapacity) i) =
      update (fun i => f (rowOf (r / defaultVectorCapacity) i)) (r % defaultVectorCapacity) d i := by
  by_cases h : i = r % defaultVectorCapacity
  · subst h
    rw [rowOf_div_mod, update_self, update_self]
  · rw [update_of_ne h, update_of_ne]
    intro heq
    rw [← rowOf_div_mod r] at heq
    exact h (rowOf_injective hi (Nat.mod_lt _ defaultVectorCapacity_pos) heq).2

theorem update_rowOf_of_ne (hv : v ≠ r / defaultVectorCapacity) : update f r d (rowOf v i) = f (rowOf v i) := by
  rw [update_of_ne]
  intro heq
  rw [← rowOf_div_mod r] at heq
  exact hv (rowOf_injective hi (Nat.mod_lt _ defaultVectorCapacity_pos) heq).1

end

/-- The log, when the deletion of a row changes. -/
def RowLog.setDeleted (log : RowLog) (row : Nat) (d : Option Stamp) : RowLog :=
  { log with deletedBy := update log.deletedBy row d }

variable {d : Option Stamp}

theorem EntryMatches.setDeleted {vector : VectorVersionInfo}
    (h : vector.Matches ok lost (fun i => log.insertedBy (rowOf (r / defaultVectorCapacity) i))
      (update (fun i => log.deletedBy (rowOf (r / defaultVectorCapacity) i))
        (r % defaultVectorCapacity) d) (rowsInVector log.numRows (r / defaultVectorCapacity))) :
    EntryMatches ok lost (log.setDeleted r d) (r / defaultVectorCapacity) (some vector) :=
  h.congr_rows (fun _ _ => rfl) fun _ hi => update_rowOf _ d (lt_of_lt_rowsInVector hi)

variable {entry : Option VectorVersionInfo}

theorem EntryMatches.setDeleted_of_ne (h : EntryMatches ok lost log v entry) (hv : v ≠ r / defaultVectorCapacity) :
    EntryMatches ok lost (log.setDeleted r d) v entry :=
  h.congr rfl (fun _ _ => rfl) fun _ hi => update_rowOf_of_ne _ d (lt_of_lt_rowsInVector hi) hv

theorem meets_one_iff : Meets r 1 v ↔ v = r / defaultVectorCapacity := by
  rw [Meets, Nat.add_sub_cancel]
  omega

theorem firstIn_one : firstIn r (r / defaultVectorCapacity) = r % defaultVectorCapacity := by
  rw [firstIn, startRowInVector, if_pos rfl]

theorem numIn_one : numIn r 1 (r / defaultVectorCapacity) = 1 := by
  rw [numIn, startRowInVector, endRowInVector, Nat.add_sub_cancel, if_pos rfl, if_pos rfl]
  omega

/-- A row that is not checkpointed or that is deleted has an entry. -/
theorem EntryMatches.exists_some
    (h : EntryMatches ok lost log (r / defaultVectorCapacity) entry) (hr : r < log.numRows)
    (hne : log.insertedBy r ≠ .checkpointed ∨ log.deletedBy r ≠ none) :
    ∃ vector, entry = some vector := by
  cases entry with
  | none =>
    have hrow := h _ (mod_lt_rowsInVector hr)
    rw [rowOf_div_mod] at hrow
    rcases hne with hne | hne
    · exact absurd hrow.1 hne
    · exact absurd hrow.2 hne
  | some vector => exact ⟨vector, rfl⟩

theorem ChunkedVersions.exists_versionInfo {vector : VectorVersionInfo} (h : group.entry v = some vector) :
    ∃ info, group.versionInfo = some info ∧ info.vectorsInfo = group.entry := by
  cases hinfo : group.versionInfo with
  | none => simp [entry, hinfo] at h
  | some info =>
    refine ⟨info, rfl, ?_⟩
    funext w
    simp [entry, hinfo]

/-- An operation on one row, from what it does to the vector. -/
theorem GroupMatches.onRow (f : Nat → Nat → VectorVersionInfo → Option VectorVersionInfo)
    (h : GroupMatches ok lost log group) (hr : r < log.numRows) (hdel : log.deletedBy r ≠ none)
    (hf : ∀ vector : VectorVersionInfo, EntryMatches ok lost log (r / defaultVectorCapacity) (some vector) →
      ∃ vector', f (r % defaultVectorCapacity) 1 vector = some vector' ∧
        vector'.Matches ok lost (fun i => log.insertedBy (rowOf (r / defaultVectorCapacity) i))
          (update (fun i => log.deletedBy (rowOf (r / defaultVectorCapacity) i))
            (r % defaultVectorCapacity) d) (rowsInVector log.numRows (r / defaultVectorCapacity))) :
    ∃ group', ((group.versionInfo.bind (onVectors f r 1)).map fun info =>
        { group with versionInfo := some info }) = some group' ∧
      group.SameShape group' ∧ GroupMatches ok lost (log.setDeleted r d) group' := by
  obtain ⟨vector, hvector⟩ := (h.entries (r / defaultVectorCapacity)).exists_some hr (.inr hdel)
  obtain ⟨info, hinfo, hentry⟩ := exists_versionInfo hvector
  have hmatch := h.entries (r / defaultVectorCapacity)
  rw [hvector] at hmatch
  obtain ⟨vector', hvector', hmatch'⟩ := hf vector hmatch
  obtain ⟨info', hinfo', hentries⟩ := onVectors_matches ok lost (log.setDeleted r d) f r Nat.one_pos info
    (fun v hv => by
      obtain rfl := meets_one_iff.mp hv
      refine ⟨vector', ?_, .setDeleted hmatch'⟩
      rw [firstIn_one, numIn_one, getOrCreateVersionInfo, hentry, hvector]
      exact hvector')
    fun v hv => by
      rw [hentry]
      exact (h.entries v).setDeleted_of_ne fun heq => hv (meets_one_iff.mpr heq)
  refine ⟨{ group with versionInfo := some info' }, ?_, ⟨rfl, rfl⟩, h.numRows, hentries⟩
  rw [hinfo, bind_some, hinfo', map_some]

theorem GroupMatches.commitDelete {id ts : Nat} (h : GroupMatches ok (fun _ => False) log group)
    (hr : r < log.numRows) (hdel : log.deletedBy r = some (.pending id)) :
    ∃ group', group.commitDelete r 1 ts = some group' ∧
      group.SameShape group' ∧ GroupMatches ok (fun _ => False) (log.setDeleted r (some (.committed ts))) group' := by
  refine h.onRow _ hr (by simp [hdel]) fun vector hv => ?_
  rw [← rowOf_div_mod r] at hdel
  exact hv.vector.setDeleteCommitTS (mod_lt_rowsInVector hr) hdel

theorem GroupMatches.rollbackDelete {id : Nat} (h : GroupMatches ok lost log group) (hval : log.Valid)
    (hid : (Stamp.pending id).Valid) (hr : r < log.numRows)
    (hdel : log.deletedBy r = some (.pending id)) :
    ∃ group', group.rollbackDelete r 1 = some group' ∧
      group.SameShape group' ∧ GroupMatches ok lost (log.setDeleted r none) group' := by
  refine h.onRow (fun start num vector => some (vector.rollbackDeletions start num)) hr
    (by simp [hdel]) fun vector hv => ⟨_, rfl, ?_⟩
  rw [← rowOf_div_mod r] at hdel
  exact hv.vector.rollbackDeletions (rowsInVector_le _ _) (mod_lt_rowsInVector hr) hdel hid
    fun i hi => hval.deleted _ (rowOf_lt hi)

theorem EntryMatches.markInserted (h : EntryExact log (r / defaultVectorCapacity) entry) (hr : r < log.numRows) :
    EntryExact log (r / defaultVectorCapacity) (some (if (entry.getD .new).insertionStatus = .noInserted then
        { entry.getD .new with insertionStatus := .alwaysInserted } else entry.getD .new)) := by
  cases entry with
  | none =>
    refine ⟨.alwaysInserted rfl rfl rfl fun i hi => (h i hi).1, rfl, fun i => ?_, by
      simp [VectorVersionInfo.new], fun _ i hi => .inl (h i hi).2⟩
    by_cases hi : i < rowsInVector log.numRows (r / defaultVectorCapacity)
    · rw [if_pos hi, (h i hi).2]
      rfl
    · rw [if_neg hi]
      rfl
  | some vector =>
    have hno := h.vector.inserted.ne_noInserted (mod_lt_rowsInVector hr)
    rw [getD_some, if_neg hno]
    exact h

/-- `delete_` on a row of the group. The deleting transaction is given as a stamp: a checkpoint
deletes as well. -/
theorem GroupMatches.delete (h : GroupExact log group) (hval : log.Valid) (hr : r < log.numRows)
    {s : Stamp} (hs : s.Valid) :
    (log.deletedBy r = none ∧ (group.delete s.version r).2 = .deleted ∧
      GroupExact (log.setDeleted r (some s)) (group.delete s.version r).1) ∨
    ∃ d, log.deletedBy r = some d ∧ GroupExact log (group.delete s.version r).1 ∧ (group.delete s.version r).2 =
        if d.version = s.version then .alreadyDeleted else .conflict deleteConflict := by
  have hmatch := (h.entries (r / defaultVectorCapacity)).markInserted hr
  have hdel := hmatch.vector.delete (mod_lt_rowsInVector hr) hs (by rw [rowOf_div_mod]; exact hval.deleted r hr)
  rw [rowOf_div_mod] at hdel
  obtain ⟨vector, hvector⟩ : ∃ vector, vector = VectorVersionInfo.delete s.version (r % defaultVectorCapacity)
        (if ((group.entry (r / defaultVectorCapacity)).getD .new).insertionStatus = .noInserted then
          { (group.entry (r / defaultVectorCapacity)).getD .new with
            insertionStatus := .alwaysInserted }
        else (group.entry (r / defaultVectorCapacity)).getD .new) := ⟨_, rfl⟩
  rw [← hvector] at hdel
  have heq : group.delete s.version r = ({ group with
      versionInfo := some ((group.versionInfo.getD .new).set (r / defaultVectorCapacity) vector.1) },
      vector.2) := by
    rw [hvector, ← entry_eq]
    rfl
  rw [heq]
  have hset {log' : RowLog} (hnum : log'.numRows = log.numRows)
      (hself : EntryExact log' (r / defaultVectorCapacity) (some vector.1))
      (hother : ∀ v, v ≠ r / defaultVectorCapacity → EntryExact log' v (group.entry v)) :
      GroupExact log' { group with
        versionInfo := some ((group.versionInfo.getD .new).set (r / defaultVectorCapacity) vector.1) } := by
    refine ⟨h.numRows.trans hnum.symm, fun v => ?_⟩
    by_cases hv : v = r / defaultVectorCapacity
    · subst hv
      simpa [entry, VersionInfo.set] using hself
    · simpa [entry, VersionInfo.set, hv, entry_eq] using hother v hv
  rcases hdel with ⟨hnone, hresult, hexact⟩ | ⟨d, hd, hexact, hresult⟩
  · exact .inl ⟨hnone, hresult, hset rfl (.setDeleted hexact) fun v hv =>
      (h.entries v).setDeleted_of_ne hv⟩
  · exact .inr ⟨d, hd, hset rfl hexact fun v _ => h.entries v, hresult⟩

end OneRow

/-! ## Stamping and taking back appended rows -/

/-- The log, when rows are stamped. -/
def RowLog.setInserted (log : RowLog) (startRow numRows : Nat) (s : Stamp) : RowLog :=
  { log with
    insertedBy := fun r => if startRow ≤ r ∧ r < startRow + numRows then s else log.insertedBy r }

theorem Meets.exists_row {startRow numRows : Nat} (hn : 0 < numRows) (hv : Meets startRow numRows v) :
    ∃ r, r / defaultVectorCapacity = v ∧ startRow ≤ r ∧ r < startRow + numRows := by
  have h1 := rowOf_firstIn hv
  have h2 := rowOf_numIn hn hv
  have hpos : 0 < numIn startRow numRows v := numIn_pos
  refine ⟨v * 2048 + firstIn startRow v, ?_, ?_, ?_⟩
  · rw [defaultVectorCapacity_eq]
    omega
  · omega
  · omega

/-- The vectors of rows that are not checkpointed have entries. -/
theorem GroupMatches.exists_vectors {startRow numRows : Nat} (h : GroupMatches ok lost log group)
    (hn : 0 < numRows) (hle : startRow + numRows ≤ log.numRows)
    (hrange : ∀ r, startRow ≤ r → r < startRow + numRows → log.insertedBy r ≠ .checkpointed) :
    ∃ info, group.versionInfo = some info ∧ info.vectorsInfo = group.entry ∧
      ∀ v, Meets startRow numRows v → ∃ vector, group.entry v = some vector ∧
        EntryMatches ok lost log v (some vector) := by
  have hvec (v : Nat) (hv : Meets startRow numRows v) : ∃ vector, group.entry v = some vector := by
    obtain ⟨r, rfl, hr, hr'⟩ := hv.exists_row hn
    exact (h.entries _).exists_some (by omega) (.inl (hrange r hr hr'))
  have hfirst : Meets startRow numRows (startRow / defaultVectorCapacity) := ⟨le_rfl, Nat.div_le_div_right (by omega)⟩
  obtain ⟨vector, hvector⟩ := hvec _ hfirst
  obtain ⟨info, hinfo, hentry⟩ := exists_versionInfo hvector
  refine ⟨info, hinfo, hentry, fun v hv => ?_⟩
  obtain ⟨vector, hvector⟩ := hvec v hv
  have hmatch := h.entries v
  rw [hvector] at hmatch
  exact ⟨vector, hvector, hmatch⟩

theorem rowsInVector_mono {n m : Nat} (h : n ≤ m) : rowsInVector n v ≤ rowsInVector m v := by
  rw [rowsInVector, rowsInVector]
  omega

theorem GroupMatches.commitInsert {id ts startRow numRows : Nat}
    (h : GroupMatches (committing id ts) (fun _ => False) log group)
    (hval : log.Valid) (hid : startTransactionID ≤ id) (hts : ts < startTransactionID)
    (hn : 0 < numRows) (hle : startRow + numRows ≤ log.numRows)
    (hrange : ∀ r, startRow ≤ r → r < startRow + numRows → log.insertedBy r = .pending id) :
    ∃ group', group.commitInsert startRow numRows ts = some group' ∧
      group.SameShape group' ∧ GroupMatches (committing id ts) (fun _ => False)
        (log.setInserted startRow numRows (.committed ts)) group' := by
  obtain ⟨info, hinfo, hentry, hvec⟩ := h.exists_vectors hn hle fun r hr hr' => by
    simp [hrange r hr hr']
  obtain ⟨info', hinfo', hentries⟩ := onVectors_matches (committing id ts)
    (fun _ => False) (log.setInserted startRow numRows (.committed ts))
    (setInsertCommitTS ts) startRow hn info
    (fun v hv => by
      obtain ⟨vector, hvector, hmatch⟩ := hvec v hv
      have hlast : firstIn startRow v + numIn startRow numRows v ≤ rowsInVector log.numRows v := by
        rw [← rowsInVector_end hn hv]
        exact rowsInVector_mono hle
      obtain ⟨vector', hvector', hmatch'⟩ := hmatch.vector.setInsertCommitTS hid hts
        (fun i hi => hval.inserted _ (rowOf_lt hi)) numIn_pos hlast fun i hi hi' => by
          have hmem := (mem_range_iff hn hv (hi'.trans_le (firstIn_add_numIn_le hn hv))).mp ⟨hi, hi'⟩
          exact hrange _ hmem.1 hmem.2
      refine ⟨vector', ?_, hmatch'.congr_rows (fun i hi => ?_) fun _ _ => rfl⟩
      · rw [getOrCreateVersionInfo, hentry, hvector]
        exact hvector'
      · exact if_congr (mem_range_iff hn hv (lt_of_lt_rowsInVector hi)).symm rfl rfl)
    fun v hv => by
      rw [hentry]
      refine (h.entries v).congr rfl (fun i hi => if_neg fun hmem => hv ?_) fun _ _ => rfl
      exact meets_of_mem (lt_of_lt_rowsInVector hi) hmem.1 hmem.2
  refine ⟨{ group with versionInfo := some info' }, ?_, ⟨rfl, rfl⟩, h.numRows, hentries⟩
  rw [ChunkedVersions.commitInsert, hinfo, bind_some, VersionInfo.commitInsert, hinfo', map_some]

theorem GroupMatches.rollbackInsert {id startRow numRows : Nat}
    (h : GroupMatches exactVersion (· = .pending id) log group) (hval : log.Valid)
    (hid : startTransactionID ≤ id) (hn : 0 < numRows) (hle : log.numRows = startRow + numRows)
    (hrange : ∀ r, startRow ≤ r → r < startRow + numRows → log.insertedBy r = .pending id ∧ log.deletedBy r = none) :
    ∃ group', group.rollbackInsert startRow numRows = some group' ∧
      group.SameShape group' ∧ GroupMatches exactVersion (· = .pending id) { log with numRows := startRow } group' := by
  by_cases hzero : startRow = 0
  · refine ⟨{ group with numRows := 0, versionInfo := none },
      by rw [ChunkedVersions.rollbackInsert, if_pos hzero], ⟨rfl, rfl⟩, hzero.symm, fun v i hi => ?_⟩
    simp [rowsInVector, hzero] at hi
  obtain ⟨info, hinfo, hentry, hvec⟩ := h.exists_vectors hn hle.ge fun r hr hr' => by
    simp [(hrange r hr hr').1]
  obtain ⟨info', hinfo', hentries⟩ := onVectors_matches exactVersion (· = .pending id)
    { log with numRows := startRow }
    (fun start num vector => some (vector.rollbackInsertions start num)) startRow hn info
    (fun v hv => by
      obtain ⟨vector, hvector, hmatch⟩ := hvec v hv
      rw [EntryMatches, hle, rowsInVector_end hn hv] at hmatch
      have hlt {i : Nat} (hi : i < firstIn startRow v + numIn startRow numRows v) :
          i < defaultVectorCapacity := hi.trans_le (firstIn_add_numIn_le hn hv)
      have hback := hmatch.rollbackInsertions hid (fun i hi => hval.inserted _ (by
          rw [hle, rowOf_lt_iff (hlt hi), rowsInVector_end hn hv]
          exact hi)) numIn_pos fun i hi hi' => by
          have hmem := (mem_range_iff hn hv (hlt hi')).mp ⟨hi, hi'⟩
          exact hrange _ hmem.1 hmem.2
      refine ⟨_, rfl, ?_⟩
      rw [getOrCreateVersionInfo, hentry, hvector]
      rw [← rowsInVector_start hv] at hback ⊢
      exact hback)
    fun v hv => by
      rw [hentry]
      exact (h.entries v).congr (by rw [hle, rowsInVector_of_not_meets hn hv]) (fun _ _ => rfl) fun _ _ => rfl
  refine ⟨{ group with versionInfo := some info', numRows := startRow }, ?_, ⟨rfl, rfl⟩, rfl, hentries⟩
  have hnum := h.numRows
  rw [ChunkedVersions.rollbackInsert, if_neg hzero, if_neg (by omega), hinfo, bind_some,
    VersionInfo.rollbackInsert, hinfo', map_some]

end CycleJoin
