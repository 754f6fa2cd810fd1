import CycleJoin.Storage.Compression.Fields

/-!
# Compressed pages

`compressNextPage` puts the values, without the offset, in fields side by side, full chunks and the
partial one alike. `decompressFromPage` decodes the fields of a range, wherever its chunks start and end.
-/

namespace CycleJoin

open List

namespace BitpackInfo

variable {t : IntegerType} {info : BitpackInfo t} {w : Nat}

/-! ## Chunks and words -/

variable {n : Nat}

theorem packedBits_add (hw : 0 < w) (src : Nat → BitVec n) (i k : Nat) :
    packedBits w src (i * w + k) = packedBits w (fun j => src (i + j)) k := by
  rw [packedBits, packedBits, mul_comm, Nat.mul_add_div hw, Nat.mul_add_mod]

theorem wordIdx_mul (t : IntegerType) (chunk w : Nat) :
    t.wordIdx (chunk * (chunkSize / 8 * w)) * t.compressedBits = chunk * chunkSize * w := by
  have hmul : chunk * (chunkSize / 8 * w) = 4 * (chunk * w) := by
    rw [show chunkSize / 8 = 4 from rfl, mul_left_comm]
  have hmul' : chunk * chunkSize * w = 32 * (chunk * w) := by
    rw [show chunkSize = 32 from rfl, mul_comm chunk, mul_assoc]
  unfold IntegerType.wordIdx
  rcases t.compressedBits_eq with hc | hc <;> rw [hc] <;> omega

theorem byteOffset_eq (chunk w : Nat) : chunk * chunkSize * w / 8 = chunk * (chunkSize / 8 * w) := by
  have hmul : chunk * chunkSize * w = 8 * (chunk * (4 * w)) := by
    rw [show chunkSize = 8 * 4 from rfl, mul_left_comm, mul_assoc, mul_assoc]
  rw [hmul, Nat.mul_div_cancel_left _ (by decide)]
  rfl

/-! ## Compression -/

/-- The offset can be subtracted from the value. -/
def Encodes (info : BitpackInfo t) (v : t.Value) : Prop :=
  info.offset = 0 ∨ t.sub v info.offset = some (v - info.offset)

variable {α : Type*}

theorem mapM_congr {f g : Nat → Option α} {l : List Nat} (h : ∀ i ∈ l, f i = g i) : l.mapM f = l.mapM g := by
  induction l with
  | nil => rfl
  | cons i l ih =>
    rw [mapM_cons, mapM_cons, h i mem_cons_self, ih fun j hj => h j (mem_cons_of_mem _ hj)]

theorem mapM_range_eq_some {f : Nat → Option α} {g : Nat → α} (n : Nat)
    (h : ∀ j < n, f j = some (g j)) : (range n).mapM f = some ((range n).map g) := by
  rw [mapM_congr fun j hj => h j (mem_range.mp hj)]
  exact mapM_pure

variable {src : Nat → t.Value}

theorem chunkToPack_eq (h : ∀ j < n, info.Encodes (src j)) :
    ∃ tmp, chunkToPack src info n = some tmp ∧ ∀ j < n, tmp j = src j - info.offset := by
  unfold chunkToPack
  split
  · rename_i hzero
    exact ⟨src, rfl, fun j _ => by rw [hzero]; exact (BitVec.sub_zero _).symm⟩
  · rename_i hne
    rw [copyValuesToTempChunkWithOffset, mapM_range_eq_some n fun j hj => (h j hj).resolve_left hne]
    refine ⟨_, rfl, fun j hj => ?_⟩
    simp [hj]

theorem setsBits_append (hw : 0 < w) {c count len : Nat} {src tmp : Nat → BitVec n}
    {page packed page' : Words c} (htmp : ∀ j < len, tmp j = src (count + j))
    (hpacked : SetsBits 0 (count * w) (packedBits w src) page packed)
    (hchunk : SetsBits (count * w) (len * w) (packedBits w tmp) packed page') :
    SetsBits 0 ((count + len) * w) (packedBits w src) page page' := by
  rw [← zero_add (count * w)] at hchunk
  rw [add_mul]
  refine (hpacked.trans hchunk).congr fun k hk => ?_
  by_cases hlt : k < count * w
  · rw [if_pos hlt]
  · obtain ⟨k, rfl⟩ := Nat.exists_eq_add_of_le (Nat.le_of_not_lt hlt)
    have hdiv : k / w < len := by
      rw [Nat.div_lt_iff_lt_mul hw]
      omega
    rw [if_neg hlt, Nat.add_sub_cancel_left, packedBits_add hw, packedBits, packedBits, htmp _ hdiv]

/-- The full chunks are packed from the start of the page. -/
theorem packFullChunks_eq (hw : info.bitWidth < t.bits) (hpos : 0 < info.bitWidth)
    (chunks : Nat) (h : ∀ j < chunks * chunkSize, info.Encodes (src j)) (dst : t.Page) :
    ∃ dst', info.packFullChunks src chunks dst = some dst' ∧ SetsBits 0 (chunks * chunkSize * info.bitWidth)
        (packedBits info.bitWidth fun j => src j - info.offset) dst dst' := by
  induction chunks with
  | zero =>
    refine ⟨dst, rfl, ?_⟩
    rw [zero_mul, zero_mul]
    exact SetsBits.of_len_zero _ _ dst
  | succ chunks ih =>
    rw [add_mul] at h
    obtain ⟨packed, hpacked, hsets⟩ := ih fun j hj => h j (by omega)
    have hencodes : ∀ j < chunkSize, info.Encodes (src (chunks * chunkSize + j)) :=
      fun j hj => h _ (by omega)
    obtain ⟨tmp, htmp, hvalues⟩ := chunkToPack_eq hencodes
    have hchunk := setsBits_fastpack hw tmp packed (t.wordIdx (chunks * (chunkSize / 8 * info.bitWidth)))
    rw [wordIdx_mul] at hchunk
    refine ⟨fastpack tmp packed (t.wordIdx (chunks * (chunkSize / 8 * info.bitWidth))) info.bitWidth, ?_, ?_⟩
    · rw [packFullChunks, hpacked]
      dsimp only [Option.bind_eq_bind]
      rw [htmp, byteOffset_eq]
      rfl
    · rw [add_mul chunks 1]
      exact setsBits_append hpos hvalues hsets hchunk

theorem setsBits_packPartialChunk (hw : info.bitWidth < t.bits) (src : Nat → t.Value) (dst : t.Page)
    (cursor n : Nat) :
    SetsBits (cursor * t.compressedBits) (n * info.bitWidth) (packedBits info.bitWidth src) dst
      (packPartialChunk src dst cursor info n) :=
  setsBits_foldl_range n (fun i _ dst => IntegerType.setsBits_packSingle (.inl hw) (src i) dst cursor i) dst

variable {remaining : Nat}

theorem compressNextPage_eq (hw : info.bitWidth < t.bits) (hpos : 0 < info.bitWidth)
    (h : ∀ j < min remaining info.numValues, info.Encodes (src j)) (dst : t.Page) :
    ∃ dst' size, info.compressNextPage src remaining dst = some (dst', size, min remaining info.numValues) ∧
      min remaining info.numValues * info.bitWidth ≤ size * 8 ∧
      SetsBits 0 (min remaining info.numValues * info.bitWidth)
        (packedBits info.bitWidth fun j => src j - info.offset) dst dst' := by
  generalize hn : min remaining info.numValues = n at *
  have hdiv : (n - n % chunkSize) / chunkSize * chunkSize = n - n % chunkSize := by
    unfold chunkSize
    omega
  have hmod : n - n % chunkSize + n % chunkSize = n := Nat.sub_add_cancel (Nat.mod_le ..)
  have hfull : ∀ j < (n - n % chunkSize) / chunkSize * chunkSize, info.Encodes (src j) :=
    fun j hj => h j (by omega)
  obtain ⟨packed, hpacked, hsets⟩ := packFullChunks_eq hw hpos _ hfull dst
  rw [hdiv] at hsets
  have hbytes : n * info.bitWidth ≤ (n * info.bitWidth / 8 + if n * info.bitWidth % 8 ≠ 0 then 1 else 0) * 8 := by
    split <;> omega
  unfold compressNextPage
  rw [if_neg (by omega)]
  dsimp only [Option.bind_eq_bind]
  rw [hn, hpacked, Option.bind_some]
  by_cases hrest : n % chunkSize > 0
  · have hencodes : ∀ j < n % chunkSize, info.Encodes (src (n - n % chunkSize + j)) :=
      fun j hj => h _ (by omega)
    obtain ⟨tmp, htmp, hvalues⟩ := chunkToPack_eq hencodes
    have hchunk := setsBits_packPartialChunk hw tmp packed
      (t.wordIdx ((n - n % chunkSize) / chunkSize * (chunkSize / 8 * info.bitWidth))) (n % chunkSize)
    rw [wordIdx_mul, hdiv] at hchunk
    have hall := setsBits_append hpos hvalues hsets hchunk
    rw [hmod] at hall
    rw [if_pos hrest, htmp]
    refine ⟨_, _, ?_, hbytes, hall⟩
    rw [← byteOffset_eq, hdiv]
    rfl
  · have hzero : n % chunkSize = 0 := by omega
    rw [if_neg hrest]
    refine ⟨_, _, rfl, hbytes, ?_⟩
    rwa [hzero] at hsets

theorem bit_clearFrom (size : Nat) (page : t.Page) (j : Nat) :
    (clearFrom size page).bit j = (decide (j < size * 8) && page.bit j) := by
  have hj := Nat.div_add_mod j t.compressedBits
  have hr := Nat.mod_lt j t.compressedBits_pos
  rw [mul_comm] at hj
  rw [Words.bit, clearFrom, getLsbD_ofBits, hj]
  simp [hr, Words.bit]

/-! ## Stored values -/

/-- The first `n` fields of a page hold the lowest bits of the values, without the offset. -/
def Stores (info : BitpackInfo t) (page : t.Page) (n : Nat) (src : Nat → t.Value) : Prop :=
  ∀ i < n, page.field t.bits (i * info.bitWidth) info.bitWidth =
    ((src i - info.offset).setWidth info.bitWidth).setWidth t.bits

theorem stores_of_setsBits {page page' : t.Page}
    (h : SetsBits 0 (n * info.bitWidth) (packedBits info.bitWidth fun j => src j - info.offset) page
      page') {size : Nat} (hsize : n * info.bitWidth ≤ size * 8) :
    info.Stores (clearFrom size page') n src := by
  intro i hi
  refine field_eq_setWidth fun k hk => ?_
  have hlt : i * info.bitWidth + k < n * info.bitWidth := by
    calc i * info.bitWidth + k < (i + 1) * info.bitWidth := by
          rw [add_mul]
          omega
      _ ≤ n * info.bitWidth := Nat.mul_le_mul_right _ hi
  have hbit := h.bit_of_lt hlt
  rw [zero_add] at hbit
  have hlt' : i * info.bitWidth + k < size * 8 := by omega
  rw [bit_clearFrom, hbit, packedBits_mul_add hk, decide_eq_true hlt', Bool.true_and]

/-- Without bits there is nothing to hold. -/
theorem stores_of_bitWidth_zero (hzero : info.bitWidth = 0) (page : t.Page) (n : Nat)
    (src : Nat → t.Value) : info.Stores page n src := by
  intro i _
  apply BitVec.eq_of_getLsbD_eq
  intro k _
  rw [Words.getLsbD_field, hzero]
  simp

theorem numValues_pos (hw : info.bitWidth < t.bits) : 0 < info.numValues := by
  have hbits : t.bits ≤ 128 := by cases t <;> decide
  unfold numValues
  split
  · decide
  · exact Nat.div_pos (Nat.le_trans hw.le (hbits.trans (by decide))) (by omega)

theorem compressNextPage_stores (hw : info.bitWidth < t.bits)
    (h : ∀ j < remaining, info.Encodes (src j)) (buffer : t.Page) :
    ∃ page size consumed, info.compressNextPage src remaining buffer = some (page, size, consumed) ∧
      (0 < info.bitWidth → consumed = min remaining info.numValues) ∧
      (info.bitWidth = 0 → consumed = 0) ∧
      info.Stores (clearFrom size page) (min remaining info.numValues) src := by
  rcases Nat.eq_zero_or_pos info.bitWidth with hzero | hpos
  · refine ⟨buffer, 0, 0, by rw [compressNextPage, if_pos hzero], ?_, fun _ => rfl,
      stores_of_bitWidth_zero hzero _ _ src⟩
    omega
  · have hmin : ∀ j < min remaining info.numValues, info.Encodes (src j) := fun j hj => h j (by omega)
    obtain ⟨page, size, hpage, hsize, hsets⟩ := compressNextPage_eq hw hpos hmin buffer
    refine ⟨page, size, _, hpage, fun _ => rfl, ?_, stores_of_setsBits hsets hsize⟩
    omega

/-- Each page holds the values of its positions. -/
theorem compressPages_eq (hw : info.bitWidth < t.bits) (fuel : Nat)
    (hfuel : remaining ≤ fuel) (h : ∀ j < remaining, info.Encodes (src j)) (buffer : t.Page) :
    ∃ pages, info.compressPages fuel remaining src buffer = some pages ∧ remaining ≤ pages.length * info.numValues ∧
      ∀ p page, pages[p]? = some page → info.Stores page (min (remaining - p * info.numValues) info.numValues)
          fun i => src (p * info.numValues + i) := by
  have hpos := info.numValues_pos hw
  induction fuel generalizing src remaining buffer with
  | zero => exact ⟨[], rfl, by omega, fun p page hp => absurd hp (by simp)⟩
  | succ fuel ih =>
    unfold compressPages
    by_cases hzero : remaining = 0
    · rw [if_pos hzero]
      exact ⟨[], rfl, by omega, fun p page hp => absurd hp (by simp)⟩
    · obtain ⟨page, size, consumed, hpage, hconsumed, hnone, hstores⟩ :=
        compressNextPage_stores hw h buffer
      have hrest : (if info.numValues > remaining then 0 else remaining - info.numValues) =
          remaining - info.numValues := by
        split <;> omega
      have hencodes : ∀ j < remaining - info.numValues, info.Encodes (src (consumed + j)) := by
        intro j hj
        rcases Nat.eq_zero_or_pos info.bitWidth with hbits | hbits
        · exact h _ (by omega)
        · exact h _ (by omega)
      obtain ⟨pages, hpages, hlength, hall⟩ := ih (by omega) hencodes (clearFrom size page)
      rw [if_neg hzero, hpage]
      dsimp only [Option.bind_eq_bind, Option.bind_some]
      rw [hrest, hpages]
      refine ⟨clearFrom size page :: pages, rfl, ?_, fun p other hp => ?_⟩
      · rw [length_cons, add_mul]
        omega
      · cases p with
        | zero =>
          obtain rfl : clearFrom size page = other := by simpa using hp
          simpa using hstores
        | succ p =>
          rcases Nat.eq_zero_or_pos info.bitWidth with hbits | hbits
          · exact stores_of_bitWidth_zero hbits _ _ _
          · have hmul : (p + 1) * info.numValues = info.numValues + p * info.numValues := by
              rw [add_mul, one_mul, add_comm]
            have hother := hall p other (by simpa using hp)
            intro i hi
            rw [hother i (by omega), hconsumed hbits, Nat.min_eq_right (by omega), hmul]
            dsimp only
            rw [add_assoc]

/-! ## Decompression -/

/-- A field of a page, decoded. -/
def readValue (info : BitpackInfo t) (page : t.Page) (i : Nat) : Option t.Value :=
  info.decode (page.field t.bits (i * info.bitWidth) info.bitWidth)

theorem mapM_range'_add (f : Nat → Option α) (a s n : Nat) :
    (range' s n).mapM (fun i => f (a + i)) = (range' (a + s) n).mapM f := by
  rw [← map_add_range', mapM_map]
  rfl

/-- A range is read in two parts. -/
theorem mapM_range'_split (f : Nat → Option α) {s m n : Nat} (hle : m ≤ n) : (do
      let first ← (range' s m).mapM f
      let rest ← (range' (s + m) (n - m)).mapM f
      return first ++ rest) = (range' s n).mapM f := by
  have happend := range'_append_1 (s := s) (m := m) (n := n - m)
  rw [Nat.add_sub_of_le hle] at happend
  rw [← happend, mapM_append]

variable (hw : t.Unpacks info.bitWidth)
include hw

theorem getValues_eq (page : t.Page) (chunk pos n : Nat) :
    info.getValues page (t.wordIdx (chunk * (chunkSize / 8 * info.bitWidth))) pos n =
      (range' (chunk * chunkSize + pos) n).mapM (info.readValue page) := by
  rw [← mapM_range'_add, getValues]
  congr 1
  funext i
  rw [IntegerType.unpackSingle_eq hw, wordIdx_mul, ← add_mul]
  rfl

theorem unpackFullChunks_eq (page : t.Page) (chunks chunk : Nat) :
    info.unpackFullChunks page chunks (chunk * (chunkSize / 8 * info.bitWidth)) =
      (range' (chunk * chunkSize) (chunks * chunkSize)).mapM (info.readValue page) := by
  induction chunks generalizing chunk with
  | zero => rfl
  | succ chunks ih =>
    have hchunk : (range chunkSize).mapM (fun i => info.decode
          (fastunpack page (t.wordIdx (chunk * (chunkSize / 8 * info.bitWidth))) info.bitWidth i)) =
        (range' (chunk * chunkSize) chunkSize).mapM (info.readValue page) := by
      have hadd := mapM_range'_add (info.readValue page) (chunk * chunkSize) 0 chunkSize
      rw [add_zero] at hadd
      rw [← hadd]
      refine mapM_congr fun i hi => ?_
      rw [fastunpack_eq hw _ _ (mem_range.mp hi), wordIdx_mul, ← add_mul]
      rfl
    have hnext : chunk * (chunkSize / 8 * info.bitWidth) + chunkSize / 8 * info.bitWidth =
        (chunk + 1) * (chunkSize / 8 * info.bitWidth) := by rw [add_mul, one_mul]
    rw [unpackFullChunks, hchunk, hnext, ih, add_mul chunks, add_comm (chunks * _),
      ← range'_append_1, mapM_append, add_mul chunk, one_mul]

theorem decompressAligned_eq (page : t.Page) (chunk n : Nat) :
    info.decompressAligned page (chunk * (chunkSize / 8 * info.bitWidth)) n =
      (range' (chunk * chunkSize) n).mapM (info.readValue page) := by
  have hle := Nat.div_mul_le_self n chunkSize
  rw [decompressAligned, unpackFullChunks_eq hw, ← add_mul, getValues_eq hw, add_mul]
  by_cases hlt : n / chunkSize * chunkSize < n
  · simp only [if_pos hlt]
    exact mapM_range'_split _ hle
  · have heq : n / chunkSize * chunkSize = n := by omega
    simp only [if_neg hlt, bind_pure]
    rw [heq]

theorem decompressFromPage_eq (page : t.Page) (srcOffset n : Nat) :
    info.decompressFromPage page srcOffset n = (range' srcOffset n).mapM (info.readValue page) := by
  have hdiv : srcOffset / chunkSize * chunkSize + srcOffset % chunkSize = srcOffset := Nat.div_add_mod' ..
  have hmod : srcOffset % chunkSize < chunkSize := Nat.mod_lt _ (by decide)
  have hcursor : srcOffset / chunkSize * info.bitWidth * chunkSize / 8 =
      srcOffset / chunkSize * (chunkSize / 8 * info.bitWidth) := by
    rw [mul_assoc, mul_comm info.bitWidth, ← mul_assoc, byteOffset_eq]
  have hnext : srcOffset / chunkSize * (chunkSize / 8 * info.bitWidth) + chunkSize / 8 * info.bitWidth =
      (srcOffset / chunkSize + 1) * (chunkSize / 8 * info.bitWidth) := by rw [add_mul, one_mul]
  rw [decompressFromPage, hcursor, getValues_eq hw, hdiv, hnext, decompressAligned_eq hw, decompressAligned_eq hw]
  split
  · split
    · rename_i heq
      rw [← heq]
      exact bind_pure _
    · -- the range goes on after the first chunk
      have hstart : (srcOffset / chunkSize + 1) * chunkSize =
          srcOffset + min (chunkSize - srcOffset % chunkSize) n := by
        rw [add_mul]
        omega
      rw [hstart]
      exact mapM_range'_split _ (Nat.min_le_right ..)
  · have haligned : srcOffset / chunkSize * chunkSize = srcOffset := by omega
    rw [haligned]

end BitpackInfo

end CycleJoin
