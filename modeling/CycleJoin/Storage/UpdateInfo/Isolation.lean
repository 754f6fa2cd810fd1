import CycleJoin.Storage.UpdateInfo.Snapshot

/-!
# Isolation along a run

The steps of concurrent writers that take turns keep the invariant of `Storage.UpdateInfo.Snapshot`.

* `VectorInv.frame`: a step leaves the vectors alone that its transaction has not updated.
* `snapshotInv_step`: a step at which the writers take turns keeps the invariant.
* `staysIsolated_of_takesTurns`: reads and conflicts are right along every run whose writers take
  turns.
-/

namespace CycleJoin

open List UpdateSystem Function Chain

namespace Traced

variable {V : Type} {tr : Traced V} {v : Nat} {t : ActiveTransaction}

/-! ## What a step leaves alone -/

/-- A transaction before and after a step that does not change what it has done to a vector. -/
structure SameOn (tr tr' : Traced V) (v : Nat) (t t' : ActiveTransaction) : Prop where
  id : t'.id = t.id
  startTS : t'.startTS = t.startTS
  records : ∀ r, r.vectorIdx = v → (r ∈ t'.undoBuffer ↔ r ∈ t.undoBuffer)
  writes : ∀ row, lastWrite (tr'.writes t.id) v row = lastWrite (tr.writes t.id) v row

variable {tr' : Traced V}

theorem SameOn.of_writes (h : ∀ row, lastWrite (tr'.writes t.id) v row = lastWrite (tr.writes t.id) v row) :
    SameOn tr tr' v t t := ⟨rfl, rfl, fun _ _ => Iff.rfl, h⟩

theorem SameOn.untouched {t' : ActiveTransaction} (h : SameOn tr tr' v t t')
    (hu : Untouched tr t v) : Untouched tr' t' v where
  writes := fun row => by rw [h.id, h.writes, hu.writes]
  records := fun r hr hv => hu.records r ((h.records r hv).mp hr) hv

theorem VectorInv.frame (h : VectorInv tr v) (hchain : tr'.sys.info.vectorsInfo v = tr.sys.info.vectorsInfo v)
    (hsettled : ∀ chain, Settled tr v chain → Settled tr' v chain)
    (hread : ∀ t ∈ tr.sys.activeTransactions, ∀ row,
      committedRead t.startTS v row tr'.committed = committedRead t.startTS v row tr.committed)
    (hbefore : ∀ t ∈ tr.sys.activeTransactions,
      Untouched tr t v ∨ ∃ t' ∈ tr'.sys.activeTransactions, SameOn tr tr' v t t')
    (hafter : ∀ t' ∈ tr'.sys.activeTransactions,
      Untouched tr' t' v ∨ ∃ t ∈ tr.sys.activeTransactions, SameOn tr tr' v t t') : VectorInv tr' v := by
  cases h with
  | settled hs hu =>
    refine .settled (hchain ▸ hsettled _ hs) fun t' ht' => ?_
    rcases hafter t' ht' with hu' | ⟨t, ht, hsame⟩
    · exact hu'
    · exact hsame.untouched (hu t ht)
  | written x chain t ht hc hs htop hu =>
    rcases hbefore t ht with hu' | ⟨t', ht', hsame⟩
    · obtain ⟨r, hr, hv⟩ := htop.recorded
      exact absurd hv (hu'.records r hr)
    · refine .written x chain t' ht' (hchain.trans hc) (hsettled _ hs) ?_ fun t₁ ht₁ hne => ?_
      · obtain ⟨r, hr, hv⟩ := htop.recorded
        exact {
          version := htop.version.trans hsame.id.symm
          next := htop.next
          le := fun y hy => hsame.startTS ▸ htop.le y hy
          lookup := fun row => by
            rw [htop.lookup, snapshotRead, snapshotRead, hsame.id, hsame.startTS, hsame.writes, hread t ht]
          recorded := ⟨r, (hsame.records r hv).mpr hr, hv⟩
          records := fun r hr hv => htop.records r ((hsame.records r hv).mp hr) hv }
      · rcases hafter t₁ ht₁ with hu' | ⟨t₂, ht₂, hsame'⟩
        · exact hu'
        · refine hsame'.untouched (hu t₂ ht₂ fun heq => hne ?_)
          rw [hsame'.id, heq, hsame.id]

variable {chain : Chain V}

theorem Settled.congr (h : Settled tr v chain)
    (hts : tr'.sys.lastTimestamp = tr.sys.lastTimestamp) (hc : tr'.committed = tr.committed) :
    Settled tr' v chain :=
  ⟨hts ▸ h.le, h.sorted, hc ▸ h.lookup, hc ▸ h.complete⟩

/-- A transaction has not updated a vector, or its version is on top there. -/
theorem SnapshotInv.untouched_or_onTop (h : SnapshotInv tr) (ht : t ∈ tr.sys.activeTransactions)
    (v : Nat) : Untouched tr t v ∨ ∃ x chain, tr.sys.info.vectorsInfo v = x :: chain ∧
      Settled tr v chain ∧ OnTop tr v t x chain ∧
        ∀ t' ∈ tr.sys.activeTransactions, t'.id ≠ t.id → Untouched tr t' v := by
  cases h.vector v with
  | settled hs hu => exact .inl (hu t ht)
  | written x chain t' ht' hc hs htop hu =>
    by_cases hid : t.id = t'.id
    · cases inj_on_of_nodup_map h.ids ht ht' hid
      exact .inr ⟨x, chain, hc, hs, htop, hu⟩
    · exact .inl (hu t ht hid)

/-! ## Begin -/

theorem SnapshotInv.begin (h : SnapshotInv tr) : SnapshotInv { tr with sys := tr.sys.beginTransaction true } := by
  have hsys : tr.sys.beginTransaction true = { tr.sys with
      lastTransactionID := tr.sys.lastTransactionID + 1
      activeTransactions := tr.sys.activeTransactions ++
        [⟨⟨tr.sys.lastTransactionID + 1, tr.sys.lastTimestamp⟩, []⟩] } := if_neg (by simp)
  have hstart := h.start_le
  rw [hsys]
  refine {
    distinct := h.distinct
    fresh := h.fresh
    ids := ?_
    lt_id := fun t ht => ?_
    id_le := fun t ht => ?_
    startTS_le := fun t ht => ?_
    lt_start := h.lt_start
    start_le := hstart.trans (Nat.le_succ _)
    commitTS_le := h.commitTS_le
    writes_new := fun id hid => h.writes_new id (Nat.lt_of_succ_lt hid)
    vector := fun v => ?_ }
  · simp only [map_append, map_cons, map_nil, nodup_append, h.ids, nodup_singleton, true_and, mem_map, mem_singleton]
    rintro _ ⟨t, ht, rfl⟩ _ rfl
    have := h.id_le t ht
    omega
  · rcases mem_append.mp ht with ht | ht
    · exact h.lt_id t ht
    · cases mem_singleton.mp ht
      exact Nat.lt_succ_of_le hstart
  · rcases mem_append.mp ht with ht | ht
    · exact (h.id_le t ht).trans (Nat.le_succ _)
    · cases mem_singleton.mp ht
      exact le_rfl
  · rcases mem_append.mp ht with ht | ht
    · exact h.startTS_le t ht
    · cases mem_singleton.mp ht
      exact le_rfl
  · refine (h.vector v).frame rfl (fun chain hs => hs.congr rfl rfl) (fun _ _ _ => rfl)
      (fun t ht => .inr ⟨t, mem_append_left _ ht, .of_writes fun _ => rfl⟩)
      fun t ht => ?_
    rcases mem_append.mp ht with ht | ht
    · exact .inr ⟨t, ht, .of_writes fun _ => rfl⟩
    · cases mem_singleton.mp ht
      refine .inl ⟨fun row => ?_, by simp⟩
      rw [h.writes_new _ (Nat.lt_succ_self _)]
      rfl

/-! ## Update -/

/-- The state after an update that writes to the version on top of a new chain. -/
def wrote (tr : Traced V) (id v row : Nat) (value : V) (x : VectorUpdateInfo V) (chain : Chain V) :
    Traced V where
  sys := pushRecord { tr.sys with info :=
    { tr.sys.info.setChain v (x :: chain) with nextAddr := tr.sys.info.nextAddr + 1 } } id ⟨v, x.addr⟩
  writes := update tr.writes id (⟨v, row, value⟩ :: tr.writes id)
  committed := tr.committed

variable {x : VectorUpdateInfo V}

theorem lastWrite_wrote (id w r : Nat) {row : Nat} {value : V} (t' : Nat) :
    lastWrite ((tr.wrote id v row value x chain).writes t') w r =
      if t' = id ∧ v = w ∧ row = r then some value else lastWrite (tr.writes t') w r := by
  by_cases hid : t' = id
  · subst hid
    simp [wrote, lastWrite_cons]
  · simp [wrote, hid]

theorem SnapshotInv.wrote (h : SnapshotInv tr) (ht : t ∈ tr.sys.activeTransactions) {row : Nat}
    {value : V} (hd : Distinct (x :: chain))
    (hf : ∀ y ∈ x :: chain, y.addr < tr.sys.info.nextAddr + 1) (hs : Settled tr v chain)
    (hver : x.version = t.id) (hn : x.next = none) (hle : ∀ y ∈ chain, y.version ≤ t.startTS)
    (hlook : ∀ r, x.lookup r = if r = row then some value else tr.snapshotRead t.toTransaction v r)
    (hrec : ∀ r ∈ t.undoBuffer, r.vectorIdx = v → r.vectorUpdateInfo = x.addr)
    (hu : ∀ t' ∈ tr.sys.activeTransactions, t'.id ≠ t.id → Untouched tr t' v) :
    SnapshotInv (tr.wrote t.id v row value x chain) := by
  have hchain (w : Nat) : (tr.wrote t.id v row value x chain).sys.info.vectorsInfo w =
      if w = v then x :: chain else tr.sys.info.vectorsInfo w := by
    simp [Traced.wrote, pushRecord, update_apply]
  have hact : (tr.wrote t.id v row value x chain).sys.activeTransactions =
      tr.sys.activeTransactions.map fun t' => if t'.id = t.id then
        { t' with undoBuffer := t'.undoBuffer ++ [⟨v, x.addr⟩] } else t' := rfl
  have hmem {t' : ActiveTransaction} (ht' : t' ∈ (tr.wrote t.id v row value x chain).sys.activeTransactions) :
      (t' ∈ tr.sys.activeTransactions ∧ t'.id ≠ t.id) ∨
        t' = { t with undoBuffer := t.undoBuffer ++ [⟨v, x.addr⟩] } := by
    rw [hact, mem_map] at ht'
    obtain ⟨t₁, ht₁, rfl⟩ := ht'
    by_cases hid : t₁.id = t.id
    · cases inj_on_of_nodup_map h.ids ht₁ ht hid
      exact .inr (if_pos rfl)
    · simp only [if_neg hid]
      exact .inl ⟨ht₁, hid⟩
  have hnew : { t with undoBuffer := t.undoBuffer ++ [⟨v, x.addr⟩] } ∈
      (tr.wrote t.id v row value x chain).sys.activeTransactions :=
    mem_map.mpr ⟨t, ht, if_pos rfl⟩
  have hother {t' : ActiveTransaction} (ht' : t' ∈ tr.sys.activeTransactions) (hne : t'.id ≠ t.id) :
      t' ∈ (tr.wrote t.id v row value x chain).sys.activeTransactions :=
    mem_map.mpr ⟨t', ht', if_neg hne⟩
  refine {
    distinct := fun w => ?_
    fresh := fun w => ?_
    ids := ?_
    lt_id := fun t' ht' => ?_
    id_le := fun t' ht' => ?_
    startTS_le := fun t' ht' => ?_
    lt_start := h.lt_start
    start_le := h.start_le
    commitTS_le := h.commitTS_le
    writes_new := fun id hid => ?_
    vector := fun w => ?_ }
  · rw [hchain]
    split
    · exact hd
    · exact h.distinct w
  · rw [hchain]
    split
    · exact hf
    · exact fun y hy => Nat.lt_succ_of_lt (h.fresh w y hy)
  · rw [hact, map_map]
    have hids : ((·.id) ∘ fun t' : ActiveTransaction => if t'.id = t.id then
        { t' with undoBuffer := t'.undoBuffer ++ [⟨v, x.addr⟩] } else t') = (·.id) := by
      funext t'
      simp only [comp_apply]
      split <;> rfl
    rw [hids]
    exact h.ids
  · rcases hmem ht' with ⟨ht', -⟩ | rfl
    · exact h.lt_id t' ht'
    · exact h.lt_id t ht
  · rcases hmem ht' with ⟨ht', -⟩ | rfl
    · exact h.id_le t' ht'
    · exact h.id_le t ht
  · rcases hmem ht' with ⟨ht', -⟩ | rfl
    · exact h.startTS_le t' ht'
    · exact h.startTS_le t ht
  · have hne : id ≠ t.id := fun heq => absurd (h.id_le t ht) (by rw [← heq]; exact not_le.mpr hid)
    exact (update_of_ne hne _ _).trans (h.writes_new id hid)
  · by_cases hw : w = v
    · subst hw
      refine .written x chain _ hnew (by rw [hchain, if_pos rfl]) (hs.congr rfl rfl) ?_ fun t' ht' hne => ?_
      · exact {
          version := hver
          next := hn
          le := hle
          lookup := fun r => by
            rw [hlook, snapshotRead, snapshotRead, lastWrite_wrote]
            by_cases hr : r = row
            · simp [hr]
            · simp [hr, Ne.symm hr]
              rfl
          recorded := ⟨⟨w, x.addr⟩, by simp, rfl⟩
          records := fun r hr hv => by
            rcases mem_append.mp hr with hr | hr
            · exact hrec r hr hv
            · cases mem_singleton.mp hr
              rfl }
      · rcases hmem ht' with ⟨ht', hid⟩ | rfl
        · have hu' := hu t' ht' hid
          exact ⟨fun r => by rw [lastWrite_wrote, if_neg (by simp [hid]), hu'.writes], hu'.records⟩
        · exact absurd rfl hne
    · have hrecs (r : VectorUpdateRecord) (hr : r.vectorIdx = w) :
          r ∈ t.undoBuffer ++ [⟨v, x.addr⟩] ↔ r ∈ t.undoBuffer := by
        rw [mem_append, mem_singleton, or_iff_left]
        rintro rfl
        exact hw hr.symm
      refine (h.vector w).frame (by rw [hchain, if_neg hw]) (fun chain hs => hs.congr rfl rfl)
        (fun _ _ _ => rfl) (fun t' ht' => .inr ?_) fun t' ht' => .inr ?_
      · by_cases hid : t'.id = t.id
        · cases inj_on_of_nodup_map h.ids ht' ht hid
          exact ⟨_, hnew, rfl, rfl, hrecs, fun r => by
            rw [lastWrite_wrote, if_neg (by simp [Ne.symm hw])]⟩
        · exact ⟨t', hother ht' hid, .of_writes fun r => by
            rw [lastWrite_wrote, if_neg (by simp [hid])]⟩
      · rcases hmem ht' with ⟨ht', hid⟩ | rfl
        · exact ⟨t', ht', .of_writes fun r => by rw [lastWrite_wrote, if_neg (by simp [hid])]⟩
        · exact ⟨t, ht, rfl, rfl, hrecs, fun r => by
            rw [lastWrite_wrote, if_neg (by simp [Ne.symm hw])]⟩

theorem Settled.relink (h : Settled tr v chain) (addr : Nat) : Settled tr v (chain.relink addr) := by
  cases chain with
  | nil => exact h
  | cons x chain =>
    have hmem {P : VectorUpdateInfo V → Prop} (hx : P { x with next := some addr }) (hrest : ∀ y ∈ chain, P y) :
        ∀ y ∈ relink addr (x :: chain), P y := forall_mem_cons.mpr ⟨hx, hrest⟩
    refine ⟨hmem (h.le x mem_cons_self) fun y hy => h.le y (mem_cons_of_mem x hy),
      pairwise_cons.mpr (pairwise_cons.mp h.sorted),
      hmem (h.lookup x mem_cons_self) fun y hy => h.lookup y (mem_cons_of_mem x hy),
      fun c hc row hw => ?_⟩
    obtain ⟨y, hy, heq⟩ := h.complete c hc row hw
    rcases mem_cons.mp hy with rfl | hy
    · exact ⟨_, mem_cons_self, heq⟩
    · exact ⟨y, mem_cons_of_mem _ hy, heq⟩

/-- The rows of the newest version, if all versions are visible at a timestamp. -/
theorem Settled.topRows (h : Settled tr v chain) {ts : Nat} (hle : ∀ x ∈ chain, x.version ≤ ts) (row : Nat) :
    (chain.topRows.find? (·.1 = row)).map (·.2) = committedRead ts v row tr.committed := by
  rw [← h.find?]
  cases chain with
  | nil => rfl
  | cons x chain => simp [hle x mem_cons_self, topRows, VectorUpdateInfo.lookup]

/-- An event of a transaction that is not active does nothing. -/
theorem SnapshotInv.of_active (h : SnapshotInv tr) {e : UpdateEvent V} {id : Nat} (he : eventID e = some id)
    (hstep : ∀ t ∈ tr.sys.activeTransactions, t.id = id → tr.sys.active? id = some t →
      ∃ tr', tr.step e = some tr' ∧ SnapshotInv tr') : ∃ tr', tr.step e = some tr' ∧ SnapshotInv tr' := by
  cases ht : tr.sys.active? id with
  | none =>
    refine ⟨tr, ?_, h⟩
    cases e <;> cases he <;> simp [step, UpdateSystem.step, eventID, ht]
  | some t => exact hstep t (mem_of_find?_eq_some ht) (by simpa using find?_some ht) ht

theorem SnapshotInv.update (h : SnapshotInv tr) (id v row : Nat) (value : V)
    (hturn : tr.TakesTurns (.update id v row value)) :
    ∃ tr', tr.step (.update id v row value) = some tr' ∧ SnapshotInv tr' := by
  refine h.of_active rfl ?_
  rintro t hmem rfl ht
  have hd := h.distinct v
  have hf := h.fresh v
  cases h.update_outcome hmem v row value (hturn t ht) with
  | conflict hc hu =>
    exact ⟨tr, by simp [step, UpdateSystem.step, eventID, ht, log, show _ = _ from hu], h⟩
  | own hc x chain hchain hs htop hothers hu =>
    rw [hchain] at hd hf
    refine ⟨tr.wrote t.id v row value (x.write row value) chain, ?_, ?_⟩
    · simp only [step, UpdateSystem.step, eventID, ht, log, hu, Option.bind_some]
      rfl
    · refine h.wrote hmem hd (fun y hy => ?_) hs htop.version htop.next htop.le (fun r => ?_) htop.records hothers
      · exact Nat.lt_succ_of_lt (addr_lt_of_map_eq hf hy rfl)
      · rw [← htop.lookup]
        exact find?_writeRow row r value x.rows
  | push hc hs hle hothers hu =>
    have hdp : Distinct _ := UpdateInfo.distinct_push (t := t.toTransaction) hd hf
    rw [push_eq] at hdp
    refine ⟨tr.wrote t.id v row value ⟨tr.sys.info.nextAddr, t.id,
      writeRow row value (tr.sys.info.vectorsInfo v).topRows, none⟩
        ((tr.sys.info.vectorsInfo v).relink tr.sys.info.nextAddr), ?_, ?_⟩
    · simp only [step, UpdateSystem.step, eventID, ht, log, hu, Option.bind_some]
      rfl
    · have hu' := hothers t hmem
      refine h.wrote hmem hdp (fun y hy => ?_) (hs.relink _) rfl rfl (fun y hy => ?_) (fun r => ?_)
        (fun r hr hv => absurd hv (hu'.records r hr)) fun t' ht' _ => hothers t' ht'
      · rcases mem_cons.mp hy with rfl | hy
        · exact Nat.lt_succ_self _
        · exact Nat.lt_succ_of_lt (addr_lt_of_map_eq hf hy (map_addr_relink ..))
      · have hy : y.version ∈ (tr.sys.info.vectorsInfo v).map (·.version) := by
          rw [← map_version_relink tr.sys.info.nextAddr]
          exact mem_map_of_mem (f := (·.version)) hy
        obtain ⟨z, hz, heq⟩ := mem_map.mp hy
        exact heq ▸ hle z hz
      · refine (find?_writeRow row r value _).trans ?_
        rw [hs.topRows hle, snapshotRead, hu'.writes, Option.none_or]

/-! ## Commit and rollback -/

theorem VectorInv.leave (h : VectorInv tr v) (hu : Untouched tr t v)
    (hids : (tr.sys.activeTransactions.map (·.id)).Nodup) (ht : t ∈ tr.sys.activeTransactions)
    (hact : tr'.sys.activeTransactions = tr.sys.activeTransactions.filter (·.id ≠ t.id))
    (hwrites : tr'.writes = update tr.writes t.id [])
    (hchain : tr'.sys.info.vectorsInfo v = tr.sys.info.vectorsInfo v)
    (hsettled : ∀ chain, Settled tr v chain → Settled tr' v chain)
    (hread : ∀ t ∈ tr.sys.activeTransactions, ∀ row,
      committedRead t.startTS v row tr'.committed = committedRead t.startTS v row tr.committed) :
    VectorInv tr' v := by
  have hsame (t' : ActiveTransaction) (hne : t'.id ≠ t.id) : SameOn tr tr' v t' t' :=
    .of_writes fun row => by rw [hwrites, update_of_ne hne]
  refine h.frame hchain hsettled hread (fun t' ht' => ?_) fun t' ht' => ?_
  · by_cases hid : t'.id = t.id
    · cases inj_on_of_nodup_map hids ht' ht hid
      exact .inl hu
    · exact .inr ⟨t', by simp [hact, ht', hid], hsame t' hid⟩
  · rw [hact] at ht'
    obtain ⟨ht', hid⟩ := mem_filter.mp ht'
    exact .inr ⟨t', ht', hsame t' (by simpa using hid)⟩

/-- A transaction ends: what holds apart from the vectors. -/
theorem SnapshotInv.clear (h : SnapshotInv tr)
    (hact : tr'.sys.activeTransactions = tr.sys.activeTransactions.filter (·.id ≠ t.id))
    (hwrites : tr'.writes = Function.update tr.writes t.id [])
    (hnext : tr'.sys.info.nextAddr = tr.sys.info.nextAddr)
    (hlast : tr'.sys.lastTransactionID = tr.sys.lastTransactionID)
    (hts : tr.sys.lastTimestamp ≤ tr'.sys.lastTimestamp)
    (hlt : tr'.sys.lastTimestamp < startTransactionID)
    (hcomm : ∀ c ∈ tr'.committed, c.commitTS ≤ tr'.sys.lastTimestamp)
    (hd : ∀ v, (tr'.sys.info.vectorsInfo v).Distinct) (hf : ∀ v, ∀ x ∈ tr'.sys.info.vectorsInfo v,
      ∃ y ∈ tr.sys.info.vectorsInfo v, y.addr = x.addr)
    (hv : ∀ v, VectorInv tr' v) : SnapshotInv tr' := by
  have hmem {t' : ActiveTransaction} (ht' : t' ∈ tr'.sys.activeTransactions) :
      t' ∈ tr.sys.activeTransactions := (mem_filter.mp (hact ▸ ht')).1
  refine {
    distinct := hd
    fresh := fun v x hx => ?_
    ids := hact ▸ h.ids.sublist (filter_sublist.map _)
    lt_id := fun t' ht' => h.lt_id t' (hmem ht')
    id_le := fun t' ht' => hlast ▸ h.id_le t' (hmem ht')
    startTS_le := fun t' ht' => (h.startTS_le t' (hmem ht')).trans hts
    lt_start := hlt
    start_le := hlast ▸ h.start_le
    commitTS_le := hcomm
    writes_new := fun id hid => ?_
    vector := hv }
  · obtain ⟨y, hy, heq⟩ := hf v x hx
    rw [hnext, ← heq]
    exact h.fresh v y hy
  · rw [hwrites]
    by_cases hne : id = t.id
    · rw [hne, update_self]
    · rw [update_of_ne hne, h.writes_new id (hlast ▸ hid)]

theorem Settled.commit_untouched {ws : List (LoggedWrite V)}
    (h : Settled tr v chain) (hts : tr'.sys.lastTimestamp = tr.sys.lastTimestamp + 1)
    (hc : tr'.committed = ⟨tr.sys.lastTimestamp + 1, ws⟩ :: tr.committed)
    (hu : ∀ row, lastWrite ws v row = none) : Settled tr' v chain where
  le := fun x hx => hts ▸ (h.le x hx).trans (Nat.le_succ _)
  sorted := h.sorted
  lookup := fun x hx row => by
    rw [hc, committedRead_cons_of_lt (Nat.lt_succ_of_le (h.le x hx)), h.lookup x hx]
  complete := fun c hmem row hw => by
    rw [hc] at hmem
    rcases mem_cons.mp hmem with rfl | hmem
    · simp [hu] at hw
    · exact h.complete c hmem row hw

/-- The version on top is stamped: it is the state after the commit. -/
theorem OnTop.commit
    (htop : OnTop tr v t x chain) (h : Settled tr v chain) (hstart : t.startTS ≤ tr.sys.lastTimestamp)
    (hts : tr'.sys.lastTimestamp = tr.sys.lastTimestamp + 1)
    (hc : tr'.committed = ⟨tr.sys.lastTimestamp + 1, tr.writes t.id⟩ :: tr.committed) :
    Settled tr' v ({ x with version := tr.sys.lastTimestamp + 1 } :: chain) where
  le := forall_mem_cons.mpr ⟨hts.ge, fun y hy => hts ▸ (h.le y hy).trans (Nat.le_succ _)⟩
  sorted := pairwise_cons.mpr ⟨fun y hy => Nat.lt_succ_of_le (h.le y hy), h.sorted⟩
  lookup := forall_mem_cons.mpr ⟨fun row => by
      rw [hc, committedRead, if_pos le_rfl]
      refine (htop.lookup row).trans (congrArg _ (committedRead_congr fun c hmem hw => ?_))
      obtain ⟨y, hy, heq⟩ := h.complete c hmem row hw
      have := htop.le y hy
      simp only
      omega,
    fun y hy row => by
      rw [hc, committedRead_cons_of_lt (Nat.lt_succ_of_le (h.le y hy)), h.lookup y hy]⟩
  complete := fun c hmem row hw => by
    rw [hc] at hmem
    rcases mem_cons.mp hmem with rfl | hmem
    · exact ⟨_, mem_cons_self, rfl⟩
    · obtain ⟨y, hy, heq⟩ := h.complete c hmem row hw
      exact ⟨y, mem_cons_of_mem _ hy, heq⟩

/-- A transaction that has not updated a vector before another one ends. -/
theorem Untouched.of_ne {t' : ActiveTransaction} (h : Untouched tr t' v)
    (hne : t'.id ≠ t.id) (hwrites : tr'.writes = update tr.writes t.id []) :
    Untouched tr' t' v :=
  ⟨fun row => by rw [hwrites, update_of_ne hne, h.writes], h.records⟩

theorem SnapshotInv.commit (h : SnapshotInv tr) (id : Nat) (hturn : tr.TakesTurns (.commit id)) :
    ∃ tr', tr.step (.commit id) = some tr' ∧ SnapshotInv tr' := by
  refine h.of_active rfl ?_
  rintro t hmem rfl ht
  have htop : ∀ r ∈ t.undoBuffer, TopAt r.vectorUpdateInfo (tr.sys.info.vectorsInfo r.vectorIdx) := by
    intro r hr
    rcases h.untouched_or_onTop hmem r.vectorIdx with hu | ⟨x, chain, hc, -, htop, -⟩
    · exact absurd rfl (hu.records r hr)
    · exact ⟨x, chain, hc, (htop.records r hr rfl).symm⟩
  have hspec := UpdateInfo.commit_spec (tr.sys.lastTimestamp + 1) t.undoBuffer tr.sys.info h.distinct htop
  refine ⟨_, by
    simp only [step, UpdateSystem.step, eventID, ht, hspec, Option.bind_some, log]
    rfl, ?_⟩
  refine h.clear (t := t) rfl rfl rfl rfl (Nat.le_succ _) hturn (fun c hc => ?_) (fun v => ?_)
    (fun v x hx => ?_) fun v => ?_
  · rcases mem_cons.mp hc with rfl | hc
    · exact le_rfl
    · exact (h.commitTS_le c hc).trans (Nat.le_succ _)
  · simp only [clearTransaction]
    split
    · simpa only [Distinct, map_addr_stampHead] using h.distinct v
    · exact h.distinct v
  · simp only [clearTransaction] at hx
    split at hx
    · have hx := mem_map_of_mem (f := (·.addr)) hx
      rw [map_addr_stampHead] at hx
      exact mem_map.mp hx
    · exact ⟨x, hx, rfl⟩
  · rcases h.untouched_or_onTop hmem v with hu | ⟨x, chain, hc, hs, htop, hothers⟩
    · refine (h.vector v).leave hu h.ids hmem rfl rfl ?_ (fun chain hs =>
        hs.commit_untouched rfl rfl hu.writes) fun t' ht' row => ?_
      · exact if_neg fun ⟨r, hr, hv⟩ => hu.records r hr hv
      · exact committedRead_cons_of_lt (Nat.lt_succ_of_le (h.startTS_le t' ht'))
    · refine .settled ?_ fun t' ht' => ?_
      · simp only [clearTransaction, if_pos htop.recorded, hc]
        exact htop.commit hs (h.startTS_le t hmem) rfl rfl
      · obtain ⟨ht', hne⟩ := mem_filter.mp ht'
        have hne : t'.id ≠ t.id := by simpa using hne
        exact (hothers t' ht' hne).of_ne hne rfl

theorem SnapshotInv.rollback (h : SnapshotInv tr) (id : Nat) :
    ∃ tr', tr.step (.rollback id) = some tr' ∧ SnapshotInv tr' := by
  refine h.of_active rfl ?_
  rintro t hmem rfl ht
  have hown : ∀ r ∈ t.undoBuffer, OwnTop t.toTransaction r.vectorUpdateInfo
      (tr.sys.info.vectorsInfo r.vectorIdx) := by
    intro r hr
    rcases h.untouched_or_onTop hmem r.vectorIdx with hu | ⟨x, chain, hc, -, htop, -⟩
    · exact absurd rfl (hu.records r hr)
    · exact ⟨x, chain, hc, (htop.records r hr rfl).symm, htop.version, htop.next⟩
  obtain ⟨u, hu, hnext, hall⟩ := UpdateInfo.rollback_spec (t := t.toTransaction)
    t.undoBuffer.reverse tr.sys.info h.distinct fun r hr => .inl (hown r (mem_reverse.mp hr))
  have htail (v : Nat) : u.vectorsInfo v = (tr.sys.info.vectorsInfo v).tail ∨
      u.vectorsInfo v = tr.sys.info.vectorsInfo v := by
    by_cases hex : ∃ r ∈ t.undoBuffer.reverse, r.vectorIdx = v ∧
        OwnTop t.toTransaction r.vectorUpdateInfo (tr.sys.info.vectorsInfo v)
    · exact .inl ((hall v).1 hex)
    · exact .inr ((hall v).2 hex)
  refine ⟨_, by
    simp only [step, UpdateSystem.step, eventID, ht, hu, Option.bind_some]
    rfl, ?_⟩
  refine h.clear (t := t) rfl rfl hnext rfl le_rfl h.lt_start h.commitTS_le (fun v => ?_)
    (fun v x hx => ?_) fun v => ?_
  · have hd := h.distinct v
    show (u.vectorsInfo v).Distinct
    rcases htail v with heq | heq <;> rw [heq]
    · exact hd.sublist ((tail_sublist _).map _)
    · exact hd
  · have hx : x ∈ u.vectorsInfo v := hx
    rcases htail v with heq | heq <;> rw [heq] at hx
    · exact ⟨x, mem_of_mem_tail hx, rfl⟩
    · exact ⟨x, hx, rfl⟩
  · rcases h.untouched_or_onTop hmem v with hun | ⟨x, chain, hc, hs, htop, hothers⟩
    · refine (h.vector v).leave hun h.ids hmem rfl rfl ?_ (fun chain hs => hs.congr rfl rfl) fun _ _ _ => rfl
      refine (hall v).2 ?_
      rintro ⟨r, hr, hv, -⟩
      exact hun.records r (mem_reverse.mp hr) hv
    · obtain ⟨r, hr, hv⟩ := htop.recorded
      have hchain : u.vectorsInfo v = chain := by
        rw [(hall v).1 ⟨r, mem_reverse.mpr hr, hv, hv ▸ hown r hr⟩, hc, tail_cons]
      refine .settled ?_ fun t' ht' => ?_
      · exact (show u.vectorsInfo v = chain from hchain) ▸ hs.congr rfl rfl
      · obtain ⟨ht', hne⟩ := mem_filter.mp ht'
        have hne : t'.id ≠ t.id := by simpa using hne
        exact (hothers t' ht' hne).of_ne hne rfl

/-! ## Whole runs -/

theorem snapshotInv_step (h : SnapshotInv tr) (e : UpdateEvent V) (hturn : tr.TakesTurns e) :
    ∃ tr', tr.step e = some tr' ∧ SnapshotInv tr' := by
  cases e with
  | begin => exact ⟨_, rfl, h.begin⟩
  | update id v row value => exact h.update id v row value hturn
  | commit id => exact h.commit id hturn
  | rollback id => exact h.rollback id

/-- The writers take turns along the run. -/
def AlwaysTakesTurns (tr : Traced V) : List (UpdateEvent V) → Prop
  | [] => True
  | e :: es => tr.TakesTurns e ∧ ∀ tr', tr.step e = some tr' → AlwaysTakesTurns tr' es

/-- The run has a result, every active transaction reads its snapshot before and after every step,
and an update throws if and only if it conflicts. -/
def StaysIsolated (tr : Traced V) : List (UpdateEvent V) → Prop
  | [] => tr.ReadsSnapshots
  | e :: es => tr.ReadsSnapshots ∧ tr.ThrowsIffConflicting e ∧
      ∃ tr', tr.step e = some tr' ∧ StaysIsolated tr' es

theorem SnapshotInv.staysIsolated (h : SnapshotInv tr) {es : List (UpdateEvent V)}
    (hturns : tr.AlwaysTakesTurns es) : tr.StaysIsolated es := by
  induction es generalizing tr with
  | nil => exact h.reads
  | cons e es ih =>
    obtain ⟨tr', htr', h'⟩ := snapshotInv_step h e hturns.1
    exact ⟨h.reads, h.throws_iff e hturns.1, tr', htr', ih h' (hturns.2 tr' htr')⟩

/-- Concurrent writers that take turns on each vector are isolated. -/
theorem staysIsolated_of_takesTurns {es : List (UpdateEvent V)}
    (hturns : (init : Traced V).AlwaysTakesTurns es) : (init : Traced V).StaysIsolated es :=
  snapshotInv_init.staysIsolated hturns

instance decidableConflicting (tr : Traced V) (t : Transaction) (v row : Nat) : Decidable (tr.Conflicting t v row) :=
  inferInstanceAs (Decidable ((∃ t' ∈ tr.sys.activeTransactions, _ ∧ _) ∨ ∃ c ∈ tr.committed, _ ∧ _))

instance decidableTakesTurns (tr : Traced V) : (e : UpdateEvent V) → Decidable (tr.TakesTurns e)
  | .begin | .rollback _ => .isTrue trivial
  | .update id _ _ _ =>
    inferInstanceAs (Decidable (∀ t ∈ tr.sys.active? id, _ ∨ ∀ x ∈ (_ : Chain V).head?, _ ∨ _ ∧ _))
  | .commit _ => inferInstanceAs (Decidable (_ < _))

instance decidableAlwaysTakesTurns (tr : Traced V) : (es : List (UpdateEvent V)) → Decidable (tr.AlwaysTakesTurns es)
  | [] => .isTrue trivial
  | e :: es =>
    have := fun tr' => decidableAlwaysTakesTurns tr' es
    inferInstanceAs (Decidable (_ ∧ ∀ tr' ∈ tr.step e, tr'.AlwaysTakesTurns es))

/-- Two transactions update different vectors. The second conflicts with the first on a row, before and
after it commits. A third one updates the row on top of the committed version. -/
def twoVectors : List (UpdateEvent Nat) :=
  [.begin, .begin, .update (startTransactionID + 1) 0 0 7, .update (startTransactionID + 2) 1 0 8,
    .update (startTransactionID + 2) 0 0 9, .commit (startTransactionID + 1), .begin,
    .update (startTransactionID + 3) 0 0 10, .update (startTransactionID + 2) 0 0 9,
    .commit (startTransactionID + 3)]

theorem twoVectors_isolated : (init : Traced Nat).AlwaysTakesTurns twoVectors ∧
    (init : Traced Nat).StaysIsolated twoVectors := by
  have hturns : (init : Traced Nat).AlwaysTakesTurns twoVectors := by decide +kernel
  exact ⟨hturns, staysIsolated_of_takesTurns hturns⟩

/-- Two transactions update different rows of one vector. -/
def oneVector : List (UpdateEvent Nat) :=
  [.begin, .begin, .update (startTransactionID + 1) 0 0 7, .update (startTransactionID + 2) 0 1 8]

theorem StaysIsolated.run {es : List (UpdateEvent V)} (h : tr.StaysIsolated es) :
    ∃ tr', es.foldlM step tr = some tr' ∧ tr'.ReadsSnapshots := by
  induction es generalizing tr with
  | nil => exact ⟨tr, rfl, h⟩
  | cons e es ih =>
    obtain ⟨-, -, tr₁, htr₁, hrun⟩ := h
    obtain ⟨tr', htr', hread⟩ := ih hrun
    exact ⟨tr', by rw [foldlM_cons, htr₁]; exact htr', hread⟩

/-- The second transaction reads the uncommitted value 7 of the first one. -/
theorem oneVector_not_isolated : ¬ (init : Traced Nat).StaysIsolated oneVector := by
  intro h
  obtain ⟨tr, htr, hread⟩ := h.run
  have hvalues : (oneVector.foldlM step (init : Traced Nat)).map (fun tr =>
      tr.sys.activeTransactions.map fun t =>
        (tr.sys.info.read t.toTransaction 0 0, tr.snapshotRead t.toTransaction 0 0)) =
      some [(some 7, some 7), (some 7, none)] := by decide +kernel
  rw [htr, Option.map_some, Option.some.injEq, map_eq_cons_iff] at hvalues
  obtain ⟨_, _, hact, -, hrest⟩ := hvalues
  obtain ⟨t, _, rfl, heq, -⟩ := map_eq_cons_iff.mp hrest
  have := hread t (by simp [hact]) 0 0
  rw [Prod.mk.injEq] at heq
  rw [heq.1, heq.2] at this
  cases this

end Traced
end CycleJoin
