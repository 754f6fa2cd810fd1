import CycleJoin.Catalog.Snapshots

/-!
# Lookups in the catalog

What the lookups of a `CatalogSet` return, in terms of the entry of each chain that the transaction
sees. `getEntryOfOID` compares with the newest version of each name. So it is exact if and only if the
newest version of every name that is seen has the OID of the entry that is seen
(`getEntryOfOID_exact_iff`).
-/

namespace CycleJoin

variable {N D : Type}

/-! ## OIDs -/

/-- A version of the catalog whose OIDs are distinct and given out before `bound`. -/
structure DistinctOIDs (bound : Nat) (view : N → Option (VisibleEntry D)) : Prop where
  lt : ∀ {name entry}, view name = some entry → entry.oid < bound
  inj : ∀ {name name' entry entry'}, view name = some entry → view name' = some entry' →
    entry.oid = entry'.oid → name = name'

namespace DistinctOIDs

variable {bound : Nat} {view : N → Option (VisibleEntry D)} {name : N} {entry : VisibleEntry D}

theorem mono (h : DistinctOIDs bound view) {bound' : Nat} (hle : bound ≤ bound') : DistinctOIDs bound' view :=
  ⟨fun hn => Nat.lt_of_lt_of_le (h.lt hn) hle, h.inj⟩

end DistinctOIDs

/-! ## Lookups -/

namespace CatalogEntries

variable {entries : CatalogEntries N D} {t : Transaction}

theorem getEntry_eq (entries : CatalogEntries N D) (t : Transaction) (name : N) : entries.getEntry t name =
      (visible t (entries name)).elim (.error (.doesNotExist name)) .ok := by
  rw [getEntry, getEntryNoLock, visible]
  cases traverse t (entries name) with
  | nil => rfl
  | cons e prev => cases hc : e.content <;> simp [CatalogEntry.shown, hc, Except.map]

theorem containsEntryNoLock_eq (entries : CatalogEntries N D) (t : Transaction) (name : N) :
    entries.containsEntryNoLock t name = (visible t (entries name)).isSome := by
  rw [containsEntryNoLock, visible]
  cases traverse t (entries name) with
  | nil => rfl
  | cons e prev => cases hc : e.content <;> simp [CatalogEntry.shown, CatalogEntry.isDeleted]

variable {entry : VisibleEntry D} {names : List N} {name : N}

theorem mem_getEntries (hnames : ∀ name, name ∈ names ↔ entries name ≠ []) :
    (name, entry) ∈ entries.getEntries names t ↔ visible t (entries name) = some entry := by
  simp only [getEntries, List.mem_filterMap, Option.map_eq_some_iff, Prod.mk.injEq]
  constructor
  · rintro ⟨name', -, entry', hv, rfl, rfl⟩
    exact hv
  · intro hv
    have hne : entries name ≠ [] := by
      intro hnil
      simp [hnil, visible, traverse] at hv
    exact ⟨name, (hnames name).mpr hne, entry, hv, rfl, rfl⟩

/-- A name is a hit for an OID: its newest version has the OID, and the transaction sees an entry. -/
def IsHit (entries : CatalogEntries N D) (t : Transaction) (oid : Nat) (name : N)
    (entry : VisibleEntry D) : Prop :=
  (∃ e ∈ (entries name).head?, e.oid = oid) ∧ visible t (entries name) = some entry

theorem isHit_of_getEntryOfOID {oid : Nat}
    (h : entries.getEntryOfOID t oid names = some (name, entry)) : entries.IsHit t oid name entry := by
  induction names with
  | nil => simp [getEntryOfOID] at h
  | cons name' names ih =>
    rw [getEntryOfOID] at h
    split at h
    · exact ih h
    · next e prev hchain =>
      split at h
      · exact ih h
      · next hoid =>
        split at h
        · exact ih h
        · next shown hv =>
          obtain ⟨rfl, rfl⟩ := Prod.mk.injEq .. ▸ Option.some.inj h
          exact ⟨⟨e, by simp [hchain], not_not.mp hoid⟩, hchain ▸ hv⟩

theorem getEntryOfOID_isSome {oid : Nat} (hmem : name ∈ names) (h : entries.IsHit t oid name entry) :
    ∃ found, entries.getEntryOfOID t oid names = some found := by
  induction names with
  | nil => simp at hmem
  | cons name' names ih =>
    by_cases heq : name = name'
    · subst heq
      obtain ⟨⟨e, he, hoid⟩, hv⟩ := h
      cases hchain : entries name with
      | nil => simp [hchain] at he
      | cons e' prev =>
        obtain rfl : e' = e := by simpa [hchain] using he
        rw [hchain] at hv
        exact ⟨_, by simp only [getEntryOfOID, hchain, hoid, ne_eq, hv]; rfl⟩
    · obtain ⟨found, hf⟩ := ih ((List.mem_cons.mp hmem).resolve_left heq)
      rw [getEntryOfOID]
      split
      · exact ⟨found, hf⟩
      · split
        · exact ⟨found, hf⟩
        · split
          · exact ⟨found, hf⟩
          · exact ⟨_, rfl⟩

/-- Lookups by OID are exact if and only if the newest version of every name that is seen has the OID
of the entry that is seen. -/
theorem getEntryOfOID_exact_iff (hnames : ∀ name, name ∈ names ↔ entries name ≠ [])
    {bound : Nat} (hoids : DistinctOIDs bound fun name => visible t (entries name)) :
    (∀ oid name entry, entries.getEntryOfOID t oid names = some (name, entry) ↔
        visible t (entries name) = some entry ∧ entry.oid = oid) ↔
      ∀ name entry, visible t (entries name) = some entry →
        ∀ newest ∈ (entries name).head?, newest.oid = entry.oid := by
  have hmem : ∀ {name entry}, visible t (entries name) = some entry → name ∈ names := by
    intro name entry hv
    refine (hnames name).mpr fun hnil => ?_
    simp [hnil, visible, traverse] at hv
  constructor
  · intro hexact name entry hv newest hnewest
    have hfound := (hexact entry.oid name entry).mpr ⟨hv, rfl⟩
    obtain ⟨⟨e, he, hoid⟩, -⟩ := isHit_of_getEntryOfOID hfound
    rw [Option.mem_unique hnewest he, hoid]
  · intro hnewest oid name entry
    constructor
    · intro hfound
      obtain ⟨⟨e, he, hoid⟩, hv⟩ := isHit_of_getEntryOfOID hfound
      exact ⟨hv, (hnewest name entry hv e he).symm.trans hoid⟩
    · rintro ⟨hv, rfl⟩
      have hhead : ∃ e, e ∈ (entries name).head? := by
        cases hchain : entries name with
        | nil => simp [hchain, visible, traverse] at hv
        | cons e prev => exact ⟨e, rfl⟩
      obtain ⟨e, he⟩ := hhead
      obtain ⟨⟨name', entry'⟩, hfound⟩ := getEntryOfOID_isSome (hmem hv) ⟨⟨e, he, hnewest name entry hv e he⟩, hv⟩
      obtain ⟨⟨e', he', hoid'⟩, hv'⟩ := isHit_of_getEntryOfOID hfound
      -- The entry that is found has the OID, so it is the entry of the name.
      obtain rfl : name' = name := hoids.inj hv' hv ((hnewest name' entry' hv' e' he').symm.trans hoid')
      rw [hfound, Option.some.inj (hv'.symm.trans hv)]

end CatalogEntries

end CycleJoin
