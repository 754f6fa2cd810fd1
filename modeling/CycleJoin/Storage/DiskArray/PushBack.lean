import CycleJoin.Storage.DiskArray.Contents

/-!
# Adding elements to a disk array

`pushBack` counts a new element on the last array page, or on a new one from the allocator, and writes
it there. The new place has some contents before: the array is first taken with these
(`Holds.countElement`), and then the element is set like any other.
-/

namespace CycleJoin

namespace DiskArray

variable {α : Type*} {array : DiskArray α} {checkpointed current : List α}
  {iterators : Nat → Option WriteIterator}

/-- A page that the array does not use. -/
def Unused (pageIdx : Nat) (array : DiskArray α) : Prop :=
  (∀ a < array.getNumAPs array.headerForWriteTrx, array.getAPPageIdx a .checkpoint ≠ some pageIdx) ∧
    ∀ pip ∈ array.pips ++ array.pipUpdates.newPIPs, pip.pipPageIdx ≠ pageIdx

instance (pageIdx : Nat) (array : DiskArray α) : Decidable (array.Unused pageIdx) :=
  inferInstanceAs (Decidable ((∀ a < array.getNumAPs array.headerForWriteTrx, _ ≠ _) ∧ _))

/-- The allocator returns pages that the array does not use. -/
def Fresh (supply : PageSupply) (array : DiskArray α) : Prop :=
  array.Unused supply.apPageIdx ∧ array.Unused supply.pipPageIdx ∧
    supply.apPageIdx ≠ supply.pipPageIdx

instance (supply : PageSupply) (array : DiskArray α) : Decidable (array.Fresh supply) :=
  inferInstanceAs (Decidable (_ ∧ _ ∧ _))

/-- The pages that `resize` gets are fresh when it gets them. -/
def FreshForPushBacks (supply : Nat → PageSupply) (val : α) :
    Nat → WriteIterator → DiskArray α → Prop
  | 0, _, _ => True
  | missing + 1, iter, array =>
    array.Fresh (supply array.headerForWriteTrx.numElements) ∧
      ∀ result ∈ array.pushBack (supply array.headerForWriteTrx.numElements) val iter,
        FreshForPushBacks supply val missing result.1 result.2

instance FreshForPushBacks.decidable (supply : Nat → PageSupply) (val : α) :
    (missing : Nat) → (iter : WriteIterator) → (array : DiskArray α) →
      Decidable (FreshForPushBacks supply val missing iter array)
  | 0, _, _ => inferInstanceAs (Decidable True)
  | missing + 1, iter, array =>
    haveI := fun result : WriteIterator × DiskArray α =>
      FreshForPushBacks.decidable supply val missing result.1 result.2
    inferInstanceAs (Decidable (_ ∧ ∀ result ∈ array.pushBack _ val iter, _))

namespace Holds

theorem countElement {added : DiskArray α} {p : Nat} (h : array.Holds checkpointed current iterators)
    (htrx : array.hasTransactionalUpdates) (hsame : SameExceptPIPs array added)
    (hlength : added.pips.length + added.pipUpdates.newPIPs.length =
      current.length / array.numElementsPerPage / numPageIdxsPerPIP + 1)
    (hupdated : added.pipUpdates.newPIPs ≠ [] → added.pips ≠ [] → added.pipUpdates.updatedLastPIP.isSome)
    (hpips : added.pipUpdates.updatedLastPIP.isSome → added.pips ≠ [])
    (hp : added.getAPPageIdx (current.length / array.numElementsPerPage) .checkpoint = some p)
    (hold : ∀ a < array.getNumAPs array.headerForWriteTrx,
      added.getAPPageIdx a .checkpoint = array.getAPPageIdx a .checkpoint)
    (hnew : ∀ a < array.getNumAPs array.headerForWriteTrx,
      array.getAPPageIdx a .checkpoint = some p → a = current.length / array.numElementsPerPage) :
    (added.countElement p).Holds checkpointed
      (current ++ [(added.countElement p).version p (current.length % array.numElementsPerPage)])
      iterators := by
  have hpos := array.numElementsPerPage_pos
  have hwrite := h.numElementsForWriteTrx
  have hnumAPs : array.getNumAPs array.headerForWriteTrx =
      (current.length + array.numElementsPerPage - 1) / array.numElementsPerPage := by
    rw [getNumAPs, hwrite]
  have hcount : (added.countElement p).getNumAPs (added.countElement p).headerForWriteTrx =
      current.length / array.numElementsPerPage + 1 := by
    obtain ⟨_, _, rfl⟩ := hsame
    show (array.headerForWriteTrx.numElements + 1 + array.numElementsPerPage - 1) / array.numElementsPerPage = _
    rw [hwrite, ceil_succ hpos]
  obtain ⟨pipUpdates, firstPIPPageIdx, rfl⟩ := hsame
  -- an array page of the counted array is an old one or the page of the new element
  have hcases : ∀ a < current.length / array.numElementsPerPage + 1,
      a < array.getNumAPs array.headerForWriteTrx ∨ a = current.length / array.numElementsPerPage := by
    have := div_le_ceil hpos (n := current.length)
    omega
  have hle : array.getNumAPs array.header ≤ array.getNumAPs array.headerForWriteTrx := ceil_mono h.paged.le
  refine ⟨⟨Nat.le_succ_of_le h.paged.le, h.paged.pips_length, ?_, hupdated, hpips, fun a ha => ?_,
    fun a b q ha hb hqa hqb => ?_, fun a ha => ?_⟩, h.numElements, ?_, fun i v hv => ?_, fun i v hv => ?_,
    h.shadow_isOnDisk, fun hclean => ?_, ?_, fun k iter hiter => ?_⟩
  · rw [hcount, ceil_succ numPageIdxsPerPIP_pos]
    exact hlength
  · rw [hcount] at ha
    rcases hcases a ha with hlt | rfl
    · obtain ⟨q, hq⟩ := h.paged.page a hlt
      exact ⟨q, (hold a hlt).trans hq⟩
    · exact ⟨p, hp⟩
  · rw [hcount] at ha hb
    rcases hcases a ha with hlta | rfl <;> rcases hcases b hb with hltb | rfl
    · exact h.paged.injective a b q hlta hltb ((hold a hlta).symm.trans hqa) ((hold b hltb).symm.trans hqb)
    · exact hnew a hlta (((hold a hlta).symm.trans hqa).trans (hqb.symm.trans hp))
    · exact (hnew b hltb (((hold b hltb).symm.trans hqb).trans (hqa.symm.trans hp))).symm
    · rfl
  · exact (h.paged.readOnly a ha).trans (hold a (ha.trans_le hle)).symm
  · rw [List.length_append]
    exact congrArg (· + 1) hwrite
  · rcases lt_or_ge i current.length with hi | hi
    · rw [List.getElem?_append_left hi] at hv
      obtain ⟨q, hq, hread⟩ := h.reads_current i v hv
      exact ⟨q, (hold _ (hnumAPs ▸ div_lt_ceil hpos hi)).trans hq, hread⟩
    · obtain ⟨hlast, rfl⟩ : i = current.length ∧ _ = v := by
        have hzero := getElem?_lt hv
        have hi' : i = current.length := by simp at hzero; omega
        subst hi'
        simpa using hv
      subst hlast
      exact ⟨p, hp, rfl⟩
  · obtain ⟨q, hq, hread⟩ := h.reads_checkpointed i v hv
    exact ⟨q, (hold _ (hnumAPs ▸ div_lt_ceil hpos ((getElem?_lt hv).trans_le h.checkpointed_le))).trans hq, hread⟩
  · exact absurd (htrx.symm.trans hclean) Bool.noConfusion
  · intro q hq
    obtain rfl : p = q := by simpa [DiskArray.countElement] using hq
    left
    rw [hcount]
    exact ⟨Nat.succ_pos _, hp⟩
  · obtain ⟨hlive, hpoints⟩ := h.live k iter hiter
    refine ⟨hlive, hpoints.imp_right ?_⟩
    rintro ⟨q, hframe, hidx, hap, hposn, hq, hpinned⟩
    exact ⟨q, hframe, Nat.lt_succ_of_lt hidx, hap, hposn, (hold _ (div_lt_ceil hpos hidx)).trans hq, hpinned⟩

theorem addPage (h : array.Holds checkpointed current iterators) (htrx : array.hasTransactionalUpdates)
    {supply : PageSupply} (hfresh : array.Fresh supply) :
    ∃ p isNewlyAdded added, array.getAPPageIdxAndAddAPToPIPIfNecessary supply
        (current.length / array.numElementsPerPage) = some (p, isNewlyAdded, added) ∧
      SameExceptPIPs array added ∧
      added.getAPPageIdx (current.length / array.numElementsPerPage) .checkpoint = some p ∧
      (added.countElement p).Holds checkpointed
        (current ++ [(added.countElement p).version p (current.length % array.numElementsPerPage)])
        iterators := by
  have hpos := array.numElementsPerPage_pos
  have hnumAPs : array.getNumAPs array.headerForWriteTrx =
      (current.length + array.numElementsPerPage - 1) / array.numElementsPerPage := by
    rw [getNumAPs, h.numElementsForWriteTrx]
  by_cases hmod : current.length % array.numElementsPerPage = 0
  · -- the last array page is full
    rw [ceil_of_mod_eq_zero hpos hmod] at hnumAPs
    obtain ⟨added, hadd, hadds⟩ := h.paged.addAP supply
    have hp : added.getAPPageIdx (current.length / array.numElementsPerPage) .checkpoint = some supply.apPageIdx := by
      rw [hadds.getAPPageIdx, if_pos hnumAPs.symm]
    refine ⟨supply.apPageIdx, true, added, hnumAPs ▸ hadd, hadds.same, hp,
      h.countElement htrx hadds.same ?_ ?_ ?_ hp (fun a ha => ?_) fun a ha hpage => ?_⟩
    · rw [hadds.same.pips, hadds.newPIPs_length, hnumAPs]
    · rw [hadds.same.pips]
      exact hadds.updated
    · rw [hadds.same.pips]
      exact hadds.pips_ne
    · rw [hadds.getAPPageIdx, if_neg (ne_of_lt ha)]
    · exact absurd hpage (hfresh.1.1 a ha)
  · -- the last array page has room
    rw [ceil_of_mod_ne_zero hpos hmod] at hnumAPs
    obtain ⟨p, hp⟩ := h.paged.page (current.length / array.numElementsPerPage) (by omega)
    have hget : array.getAPPageIdxAndAddAPToPIPIfNecessary supply
        (current.length / array.numElementsPerPage) = some (p, false, array) := by
      unfold getAPPageIdxAndAddAPToPIPIfNecessary
      cases hlast : array.lastAPPageIdx with
      | none => simp [hnumAPs, hp]
      | some q =>
        rcases h.lastAPPageIdx q hlast with ⟨-, hq⟩ | ⟨-, hzero⟩
        · rw [hnumAPs, Nat.add_sub_cancel, hp] at hq
          obtain rfl := Option.some.inj hq
          simp [hnumAPs]
        · exact absurd hzero hmod
    refine ⟨p, false, array, hget, ⟨_, _, rfl⟩, hp, h.countElement htrx ⟨_, _, rfl⟩ ?_ h.paged.updated
      h.paged.pips_ne hp
      (fun _ _ => rfl) fun a ha hpage => h.paged.injective _ _ p ha (by omega) hpage hp⟩
    rw [h.paged.newPIPs_length, hnumAPs, ceil_succ numPageIdxsPerPIP_pos]

variable {iter : WriteIterator} {val : α}

theorem pinNewElement {added : DiskArray α} {size p : Nat}
    (h : (added.countElement p).Holds checkpointed (current ++ [val]) iterators)
    (hsize : added.numElementsPerPage = size) {id : Nat} (hiter : iterators id = some iter)
    (hp : added.getAPPageIdx (current.length / size) .checkpoint = some p) (isNewlyAdded : Bool) :
    ∃ iter' array', (if isNewlyAdded ∨ iter.frame = none ∨ iter.apIdx ≠ some (current.length / size) then
          (added.countElement p).getPage p
            ⟨some (current.length / size), current.length % size, current.length, iter.frame⟩
        else (⟨some (current.length / size), current.length % size, current.length, iter.frame⟩,
          added.countElement p)) = (iter', array') ∧
      iter'.position = some current.length ∧
      array'.Holds checkpointed (current ++ [val]) (Function.update iterators id (some iter')) := by
  subst hsize
  obtain ⟨htrx, hpoints⟩ := h.live id iter hiter
  have hlt : current.length < (current ++ [val]).length := by simp
  split
  · obtain ⟨array', hget, hholds, htrx', hpoints'⟩ := h.getPage htrx hlt iter.frame hp
    exact ⟨_, array', hget, rfl, hholds.setIterator htrx' hpoints' id⟩
  · rename_i hstay
    simp only [not_or, not_not] at hstay
    rcases hpoints with ⟨hnone, -⟩ | ⟨q, hframe, -, hap, -, hq, hpinned⟩
    · exact absurd hnone hstay.2.1
    · refine ⟨_, _, rfl, by rw [hframe]; rfl, h.setIterator htrx ?_ id⟩
      have hdiv : iter.idx / added.numElementsPerPage = current.length / added.numElementsPerPage :=
        Option.mem_unique hap hstay.2.2
      exact .inr ⟨q, hframe, h.numElementsForWriteTrx ▸ hlt, rfl, rfl, hdiv ▸ hq, hpinned⟩

theorem pushBack (h : array.Holds checkpointed current iterators) {id : Nat}
    (hiter : iterators id = some iter) {supply : PageSupply} (hfresh : array.Fresh supply) (val : α) :
    ∃ iter' array', array.pushBack supply val iter = some (iter', array') ∧ iter'.position = some current.length ∧
      array'.Holds checkpointed (current ++ [val]) (Function.update iterators id (some iter')) := by
  obtain ⟨p, isNewlyAdded, added, hadd, hsame, hp, hcounted⟩ := h.addPage (h.live id iter hiter).1 hfresh
  obtain ⟨iter', array', hpinned, hposition, hholds⟩ :=
    hcounted.pinNewElement (hsame.numElementsPerPage) hiter hp isNewlyAdded
  have hle := h.checkpointed_le
  have hnew : array'.WritesOldPage current.length := by
    intro hlt
    rw [hholds.numElements] at hlt
    omega
  obtain ⟨written, hwritten, hresult⟩ := hholds.assign (Function.update_self ..) hposition val hnew
  refine ⟨iter', written, ?_, hposition, ?_⟩
  · rw [DiskArray.pushBack, h.numElementsForWriteTrx, hadd, Option.bind_some]
    dsimp only
    rw [hpinned, hwritten]
    rfl
  · rw [List.set_append_right _ _ le_rfl, Nat.sub_self] at hresult
    exact hresult

/-- An iterator beside those of the array. -/
def consIterator (iter : WriteIterator) (iterators : Nat → Option WriteIterator) :
    Nat → Option WriteIterator
  | 0 => some iter
  | id + 1 => iterators id

theorem update_consIterator (iter iter' : WriteIterator) :
    Function.update (consIterator iter iterators) 0 (some iter') = consIterator iter' iterators := by
  funext id
  cases id with
  | zero => rfl
  | succ id => exact Function.update_of_ne (Nat.succ_ne_zero id) ..

theorem tail (h : array.Holds checkpointed current (consIterator iter iterators)) :
    array.Holds checkpointed current iterators :=
  { h with live := fun id => h.live (id + 1) }

theorem pushBacks {supply : Nat → PageSupply} {missing : Nat}
    (h : array.Holds checkpointed current (consIterator iter iterators))
    (hfresh : FreshForPushBacks supply val missing iter array) :
    ∃ array', DiskArray.pushBacks supply val missing iter array = some array' ∧
      array'.Holds checkpointed (current ++ List.replicate missing val) iterators := by
  induction missing generalizing iter array current with
  | zero => exact ⟨array, rfl, by simpa using h.tail⟩
  | succ missing ih =>
    obtain ⟨hfresh, hrest⟩ := hfresh
    have hcons : consIterator iter iterators 0 = some iter := rfl
    obtain ⟨iter', array', hpush, -, hholds⟩ := h.pushBack hcons hfresh val
    rw [update_consIterator] at hholds
    obtain ⟨array'', hpushes, hholds'⟩ := ih hholds (hrest _ hpush)
    refine ⟨array'', ?_, ?_⟩
    · rw [DiskArray.pushBacks, hpush]
      exact hpushes
    · rw [List.append_assoc] at hholds'
      exact hholds'

theorem resize (h : array.Holds checkpointed current iterators) {supply : Nat → PageSupply} (newNumElements : Nat)
    (hfresh : FreshForPushBacks supply val (newNumElements - array.headerForWriteTrx.numElements)
      array.iterMut.1 array.iterMut.2) :
    ∃ array', array.resize supply newNumElements val = some array' ∧
      array'.Holds checkpointed (current ++ List.replicate (newNumElements - current.length) val)
        iterators := by
  rw [← h.numElementsForWriteTrx]
  refine pushBacks ?_ hfresh
  have hset := h.setTransactionalUpdates
  refine { hset with live := fun id iter hiter => ?_ }
  cases id with
  | zero =>
    obtain rfl := Option.some.inj hiter
    exact ⟨rfl, .inl ⟨rfl, rfl⟩⟩
  | succ id => exact hset.live id iter hiter

end Holds

end DiskArray

end CycleJoin
