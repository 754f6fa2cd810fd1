import CycleJoin.Storage.UpdateInfo.Basic

/-!
# What the operations do to a chain

A transaction that is alone at the top of a chain finds its version there. The lemmas say what
`update`, a commit and a rollback do in that case, first for one chain and then for all vectors.

* `getOrCreate_own`, `getOrCreate_conflict`, `getOrCreate_push`: the three outcomes of
  `getOrCreateVectorInfo` at the newest version.
* `commit_spec`, `rollback_spec`: a commit stamps the newest version of each recorded vector, a
  rollback removes it.
-/

namespace CycleJoin

open List

variable {V : Type} {t : Transaction} {row addr : Nat}

namespace Chain

variable {x : VectorUpdateInfo V} {rest chain : Chain V}

/-- The addresses of a chain are distinct. -/
def Distinct (chain : Chain V) : Prop := (chain.map (·.addr)).Nodup

theorem Distinct.tail (h : Distinct (x :: rest)) : Distinct rest := (nodup_cons.mp h).2

theorem Distinct.ne (h : Distinct (x :: rest)) {y : VectorUpdateInfo V} (hy : y ∈ rest) :
    y.addr ≠ x.addr := fun heq =>
  (nodup_cons.mp h).1 (mem_map.mpr ⟨y, hy, heq⟩)

theorem at?_head : Chain.at? (x :: rest) x.addr = some x := by simp [at?]

theorem modify_head (h : Distinct (x :: rest)) (f : VectorUpdateInfo V → VectorUpdateInfo V) :
    Chain.modify x.addr f (x :: rest) = f x :: rest := by
  have hrest : rest.map (fun y => if y.addr = x.addr then f y else y) = rest.map id :=
    map_congr_left fun y hy => if_neg (h.ne hy)
  simp [modify, hrest]

/-! ## `getOrCreateVectorInfo` -/

theorem getOrCreate_nil : getOrCreateVectorInfo t row addr ([] : Chain V) = some (.ok (push t addr [], addr)) := rfl

theorem getOrCreate_own (hv : x.version = t.id) (hn : x.next = none) :
    getOrCreateVectorInfo t row addr (x :: rest) = some (.ok (x :: rest, x.addr)) := by
  simp [getOrCreateVectorInfo, findInfo, at?_head, hv, hn]

theorem getOrCreate_conflict (hv : x.version ≠ t.id) (hts : t.startTS < x.version) (hr : x.hasRow row = true) :
    getOrCreateVectorInfo t row addr (x :: rest) = some (.error writeWriteConflict) := by
  simp [getOrCreateVectorInfo, findInfo, at?_head, hv, hts, hr]

theorem getOrCreate_push (hv : x.version ≠ t.id)
    (hc : ¬ (t.startTS < x.version ∧ x.hasRow row = true)) (hn : x.next = none) :
    getOrCreateVectorInfo t row addr (x :: rest) = some (.ok (push t addr (x :: rest), addr)) := by
  simp [getOrCreateVectorInfo, findInfo, at?_head, if_neg hv, if_neg hc, hn]

/-- The rows of the newest version. -/
def topRows : Chain V → List (Nat × V)
  | [] => []
  | x :: _ => x.rows

/-- Sets `next` of the newest version. -/
def relink (addr : Nat) : Chain V → Chain V
  | [] => []
  | x :: rest => { x with next := some addr } :: rest

theorem push_eq : push t addr chain = ⟨addr, t.id, chain.topRows, none⟩ :: chain.relink addr := by
  cases chain <;> rfl

theorem map_addr_relink (addr : Nat) (chain : Chain V) : (chain.relink addr).map (·.addr) = chain.map (·.addr) := by
  cases chain <;> rfl

theorem map_version_relink (addr : Nat) (chain : Chain V) :
    (chain.relink addr).map (·.version) = chain.map (·.version) := by
  cases chain <;> rfl

/-! ## Commit and rollback -/

/-- The version at the address is the newest one. -/
def TopAt (addr : Nat) (chain : Chain V) : Prop := ∃ x rest, chain = x :: rest ∧ x.addr = addr

/-- The version at the address is the newest one, and belongs to the transaction. -/
def OwnTop (t : Transaction) (addr : Nat) (chain : Chain V) : Prop :=
  ∃ x rest, chain = x :: rest ∧ x.addr = addr ∧ x.version = t.id ∧ x.next = none

theorem OwnTop.topAt (h : OwnTop t addr chain) : TopAt addr chain := by
  obtain ⟨x, rest, hc, ha, -⟩ := h
  exact ⟨x, rest, hc, ha⟩

/-- Stamps the newest version. -/
def stampHead (ts : Nat) : Chain V → Chain V
  | [] => []
  | x :: rest => { x with version := ts } :: rest

theorem map_addr_stampHead (ts : Nat) (chain : Chain V) :
    (chain.stampHead ts).map (·.addr) = chain.map (·.addr) := by cases chain <;> rfl

/-- Addresses below `n` in a chain are so in every chain with the same addresses. -/
theorem addr_lt_of_map_eq {chain' : Chain V} {n : Nat} (hf : ∀ x ∈ chain, x.addr < n)
    {y : VectorUpdateInfo V} (hy : y ∈ chain') (h : chain'.map (·.addr) = chain.map (·.addr)) :
    y.addr < n := by
  have hmem : y.addr ∈ chain.map (·.addr) := h ▸ mem_map_of_mem hy
  obtain ⟨x, hx, heq⟩ := mem_map.mp hmem
  exact heq ▸ hf x hx

theorem commitVectorUpdateInfo_topAt {ts : Nat} (hd : chain.Distinct) (h : TopAt addr chain) :
    chain.commitVectorUpdateInfo ts addr = some (chain.stampHead ts) := by
  obtain ⟨x, rest, rfl, rfl⟩ := h
  simp [commitVectorUpdateInfo, at?_head, modify_head hd, stampHead]

theorem rollbackVectorUpdateInfo_ownTop (h : OwnTop t addr chain) :
    chain.rollbackVectorUpdateInfo t addr = some chain.tail := by
  obtain ⟨x, rest, rfl, rfl, hv, hn⟩ := h
  simp [rollbackVectorUpdateInfo, getVectorInfo, hv, hn, older]

theorem rollbackVectorUpdateInfo_not_live (h : ∀ y ∈ chain, y.addr ≠ addr) :
    chain.rollbackVectorUpdateInfo t addr = some chain := by
  unfold rollbackVectorUpdateInfo
  cases hx : chain.getVectorInfo t with
  | none => rfl
  | some x => exact if_pos (h x (mem_of_find?_eq_some hx))

end Chain

/-! ## All vectors -/

namespace UpdateInfo

open Chain

/-- The address is not that of a version of the vector. -/
theorem distinct_push {chain : Chain V} (hd : chain.Distinct) (hf : ∀ x ∈ chain, x.addr < addr) :
    (push t addr chain).Distinct := by
  rw [Chain.Distinct, push_eq, map_cons, map_addr_relink, nodup_cons]
  refine ⟨fun hmem => ?_, hd⟩
  obtain ⟨x, hx, heq⟩ := mem_map.mp hmem
  exact absurd heq (Nat.ne_of_lt (hf x hx))

/-- What an update does if the loop of `getOrCreateVectorInfo` does not leave the newest version: it
finds a conflict, writes to the newest version, or to a new one. -/
theorem update_cases (u : UpdateInfo V) (t : Transaction) (v row : Nat) (value : V)
    (hd : (u.vectorsInfo v).Distinct) (hf : ∀ x ∈ u.vectorsInfo v, x.addr < u.nextAddr)
    (hn : ∀ x ∈ (u.vectorsInfo v).head?, x.next = none) :
    (u.update t v row value = some (.error writeWriteConflict) ∧ ∃ x rest,
      u.vectorsInfo v = x :: rest ∧ x.version ≠ t.id ∧ t.startTS < x.version ∧ x.hasRow row = true) ∨
    (∃ x rest, u.vectorsInfo v = x :: rest ∧ x.version = t.id ∧ u.update t v row value = some (.ok
        ({ u.setChain v (x.write row value :: rest) with nextAddr := u.nextAddr + 1 }, x.addr))) ∨
    ((∀ x ∈ (u.vectorsInfo v).head?, x.version ≠ t.id ∧ ¬ (t.startTS < x.version ∧ x.hasRow row = true)) ∧
      u.update t v row value = some (.ok
        ({ u.setChain v (⟨u.nextAddr, t.id, writeRow row value (u.vectorsInfo v).topRows, none⟩ ::
          (u.vectorsInfo v).relink u.nextAddr) with nextAddr := u.nextAddr + 1 }, u.nextAddr))) := by
  have hpush : (push t u.nextAddr (u.vectorsInfo v)).modify u.nextAddr (·.write row value) =
      ⟨u.nextAddr, t.id, writeRow row value (u.vectorsInfo v).topRows, none⟩ ::
        (u.vectorsInfo v).relink u.nextAddr := by
    have hdp := distinct_push (t := t) hd hf
    rw [push_eq] at hdp ⊢
    exact modify_head hdp _
  cases hc : u.vectorsInfo v with
  | nil =>
    rw [hc] at hpush
    refine .inr (.inr ⟨by simp, ?_⟩)
    simp [update, hc, getOrCreate_nil, hpush]
  | cons x rest =>
    rw [hc] at hd hpush hn
    have hn : x.next = none := hn x rfl
    by_cases hv : x.version = t.id
    · refine .inr (.inl ⟨x, rest, rfl, hv, ?_⟩)
      simp [update, hc, getOrCreate_own hv hn, modify_head hd]
    · by_cases hconf : t.startTS < x.version ∧ x.hasRow row = true
      · refine .inl ⟨?_, x, rest, rfl, hv, hconf⟩
        simp [update, hc, getOrCreate_conflict hv hconf.1 hconf.2]
      · refine .inr (.inr ⟨by simpa using ⟨hv, by simpa using hconf⟩, ?_⟩)
        simp [update, hc, getOrCreate_push hv hconf hn, hpush]

theorem commit_spec (ts : Nat) (records : List VectorUpdateRecord) (u : UpdateInfo V)
    (hd : ∀ v, (u.vectorsInfo v).Distinct)
    (hr : ∀ r ∈ records, TopAt r.vectorUpdateInfo (u.vectorsInfo r.vectorIdx)) :
    u.commit ts records = some { u with
      vectorsInfo := fun v => if ∃ r ∈ records, r.vectorIdx = v then
        (u.vectorsInfo v).stampHead ts else u.vectorsInfo v } := by
  induction records generalizing u with
  | nil => simp [commit]
  | cons r records ih =>
    have htop := hr r mem_cons_self
    rw [commit, commitVectorUpdateInfo_topAt (hd _) htop]
    have hchain (v : Nat) : (u.setChain r.vectorIdx ((u.vectorsInfo r.vectorIdx).stampHead ts)).vectorsInfo v =
          if r.vectorIdx = v then (u.vectorsInfo v).stampHead ts else u.vectorsInfo v := by
      by_cases hv : r.vectorIdx = v
      · subst hv
        simp
      · simp [Function.update_of_ne (Ne.symm hv), hv]
    have htwice (chain : Chain V) : (chain.stampHead ts).stampHead ts = chain.stampHead ts := by
      cases chain <;> rfl
    simp only
    rw [ih]
    · congr 2
      funext v
      by_cases hv : r.vectorIdx = v <;> simp [hchain, hv, htwice]
    · intro v
      rw [hchain]
      split
      · simpa only [Chain.Distinct, map_addr_stampHead] using hd v
      · exact hd v
    · intro r' hr'
      rw [hchain]
      obtain ⟨x, rest, heq, ha⟩ := hr r' (mem_cons_of_mem _ hr')
      split
      · exact ⟨{ x with version := ts }, rest, by rw [heq]; rfl, ha⟩
      · exact ⟨x, rest, heq, ha⟩

/-- A rollback removes the newest version of each recorded vector, if the records are of those. A
record whose version is already removed changes nothing. -/
theorem rollback_spec (records : List VectorUpdateRecord) (u : UpdateInfo V) (hd : ∀ v, (u.vectorsInfo v).Distinct)
    (hr : ∀ r ∈ records, OwnTop t r.vectorUpdateInfo (u.vectorsInfo r.vectorIdx) ∨
      ∀ y ∈ u.vectorsInfo r.vectorIdx, y.addr ≠ r.vectorUpdateInfo) :
    ∃ u', u.rollback t records = some u' ∧ u'.nextAddr = u.nextAddr ∧ ∀ v,
      ((∃ r ∈ records, r.vectorIdx = v ∧ OwnTop t r.vectorUpdateInfo (u.vectorsInfo v)) →
        u'.vectorsInfo v = (u.vectorsInfo v).tail) ∧
      ((¬ ∃ r ∈ records, r.vectorIdx = v ∧ OwnTop t r.vectorUpdateInfo (u.vectorsInfo v)) →
        u'.vectorsInfo v = u.vectorsInfo v) := by
  induction records generalizing u with
  | nil => exact ⟨u, rfl, rfl, by simp⟩
  | cons r records ih =>
    have hrest := fun r' hr' => hr r' (mem_cons_of_mem r hr')
    rw [rollback]
    rcases hr r mem_cons_self with hown | hlive
    · rw [rollbackVectorUpdateInfo_ownTop hown]
      obtain ⟨x, rest, heq, hx, hv, hn⟩ := hown
      have hdx := hd r.vectorIdx
      rw [heq] at hdx
      have hsame : (u.setChain r.vectorIdx (u.vectorsInfo r.vectorIdx).tail).vectorsInfo
          r.vectorIdx = rest := by simp [heq]
      have hother (v : Nat) (h : v ≠ r.vectorIdx) : (u.setChain r.vectorIdx
          (u.vectorsInfo r.vectorIdx).tail).vectorsInfo v = u.vectorsInfo v := by
        simp [Function.update_of_ne h]
      -- the address of the removed version is live no more
      have hgone : ∀ y ∈ rest, y.addr ≠ r.vectorUpdateInfo := fun y hy => hx ▸ hdx.ne hy
      obtain ⟨u', hu', hnext, hall⟩ := ih (u.setChain r.vectorIdx (u.vectorsInfo r.vectorIdx).tail) (fun v => by
          by_cases h : v = r.vectorIdx
          · rw [h, hsame]
            exact hdx.tail
          · rw [hother v h]
            exact hd v)
        (fun r' hr' => by
          by_cases h : r'.vectorIdx = r.vectorIdx
          · rw [h, hsame]
            have haddr : r'.vectorUpdateInfo = r.vectorUpdateInfo ∨ ∀ y ∈ rest, y.addr ≠ r'.vectorUpdateInfo := by
              rcases hrest r' hr' with ⟨y, rest', heq', hy, -⟩ | hno
              · rw [h, heq] at heq'
                cases heq'
                exact .inl (hy.symm.trans hx)
              · rw [h, heq] at hno
                exact .inr fun y hy => hno y (mem_cons_of_mem _ hy)
            rcases haddr with haddr | haddr
            · exact .inr (haddr ▸ hgone)
            · exact .inr haddr
          · rw [hother _ h]
            exact hrest r' hr')
      refine ⟨u', hu', hnext, fun v => ?_⟩
      by_cases h : v = r.vectorIdx
      · subst h
        have hnone : ¬ ∃ r' ∈ records, r'.vectorIdx = r.vectorIdx ∧ OwnTop t r'.vectorUpdateInfo rest := by
          rintro ⟨r', hr', h, y, rest', rfl, hy, -⟩
          rcases hrest r' hr' with ⟨z, rest'', heq', hz, -⟩ | hno
          · rw [h, heq] at heq'
            cases heq'
            exact hgone y mem_cons_self (by rw [hy, ← hz, hx])
          · rw [h, heq] at hno
            exact hno y (by simp) hy
        have hlast := (hall r.vectorIdx).2 (by rw [hsame]; exact hnone)
        rw [hsame] at hlast
        refine ⟨fun _ => by rw [hlast, heq, tail_cons], fun hno => ?_⟩
        exact absurd ⟨r, mem_cons_self, rfl, x, rest, heq, hx, hv, hn⟩ hno
      · have := hall v
        rw [hother v h] at this
        simpa [Ne.symm h] using this
    · rw [rollbackVectorUpdateInfo_not_live hlive]
      have hset : u.setChain r.vectorIdx (u.vectorsInfo r.vectorIdx) = u := by simp [setChain]
      simp only [hset]
      obtain ⟨u', hu', hnext, hall⟩ := ih u hd hrest
      refine ⟨u', hu', hnext, fun v => ?_⟩
      have hnot : ¬ (r.vectorIdx = v ∧ OwnTop t r.vectorUpdateInfo (u.vectorsInfo v)) := by
        rintro ⟨rfl, x, rest, heq, hx, -⟩
        exact hlive x (by simp [heq]) hx
      simpa [hnot] using hall v

end UpdateInfo
end CycleJoin
