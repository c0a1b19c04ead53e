import SglangMlx.AttentionKernel
import SglangMlx.Lib.Bytes

/- The index arrays of `paged_attention_v1`. The kernel takes the buffers of
   `block_tables` and `context_lens` for words of 32 bits; the host checks the shapes
   of the arrays only, and unlike `reshape_and_cache` and `copy_blocks` it does not
   convert them. So the element types decide what is read. -/
namespace SglangMlx

open MachineInt Bytes

/-! ## Arrays of integers in memory -/

def Dtype.IsInteger (d : Dtype) : Prop := d ∈ [.uint8, .uint16, .uint32, .uint64, .int8, .int16, .int32, .int64]

instance (d : Dtype) : Decidable d.IsInteger := by
  unfold Dtype.IsInteger
  infer_instance

/-- The numbers that an integer type holds. -/
def Dtype.HasValue (d : Dtype) (z : Int) : Prop :=
  match d with
  | .uint8 | .uint16 | .uint32 | .uint64 => 0 ≤ z ∧ z < 2 ^ (8 * d.size)
  | .int8 | .int16 | .int32 | .int64 => -2 ^ (8 * d.size - 1) ≤ z ∧ z < 2 ^ (8 * d.size - 1)
  | _ => False

/-- A number in two's complement. -/
def Dtype.bits (d : Dtype) (z : Int) : Nat := (z % 2 ^ (8 * d.size)).toNat

/-- The memory from the first byte of an array on; what is outside it may be anything. -/
def Stored (d : Dtype) (a : MlxArray Int) (bytes : Int → Fin 256) : Prop :=
  Holds bytes d.size a.size fun k => d.bits (a.data k)

/-- `enc.set_input_array` for the two arrays, which the kernel declares as `uint32_t *`. -/
def AttentionBuffers.setInputArrays {F : Type} (b : AttentionBuffers F)
    (blockTables contextLens : Int → Fin 256) :
    AttentionBuffers F :=
  { b with
    blockTables := fun i => number blockTables (4 * i) 4
    contextLens := fun s => number contextLens (4 * s) 4 }

/-- What the kernel may rely on: both arrays are row-contiguous and hold numbers of their
    types, lengths are not negative, and the columns of a length are block numbers. -/
structure IndexArrays {F : Type} (p : PagedAttention F) (columns : Nat) (tableType lenType : Dtype)
    (blockTables contextLens : MlxArray Int) : Prop where
  tablesShape : blockTables.shape = [p.numSeqs, columns]
  lensShape : contextLens.shape = [p.numSeqs]
  tablesContiguous : blockTables.RowContiguous
  lensContiguous : contextLens.RowContiguous
  tablesFit : ∀ s < p.numSeqs, ∀ j < columns, tableType.HasValue (blockTables.get [s, j])
  lensFit : ∀ s < p.numSeqs, lenType.HasValue (contextLens.get [s])
  lengths : ∀ s < p.numSeqs, 0 ≤ contextLens.get [s]
  blocks : ∀ s < p.numSeqs, ∀ j < columns, (j * p.blockSize : Nat) < contextLens.get [s] →
    0 ≤ blockTables.get [s, j] ∧ blockTables.get [s, j] < 2 ^ 31

/-- The kernel uses the given lengths and visits the given blocks. -/
def ReadAsGiven {F : Type} (p : PagedAttention F) (b : AttentionBuffers F)
    (blockTables contextLens : MlxArray Int) :
    Prop :=
  ∀ s < p.numSeqs, (PagedAttention.contextLen b s : Int) = contextLens.get [s] ∧
    (PagedAttention.contextLen b s ≠ 0 → PagedAttention.contextLen b s ≤ p.maxSeqLen →
      ∀ j < p.numContextBlocks b s, (p.blockTable b s j : Int) = blockTables.get [s, j])

theorem Dtype.HasValue.small {d : Dtype} {z : Int} (h : d.HasValue z) (hd : d.size = 4) : z < 2 ^ 32 := by
  cases d <;> first | (cases hd; done) | exact h.elim | (simp only [HasValue, Dtype.size] at h; omega)

theorem Dtype.hasValue_of_lt {d : Dtype} (hd : d.IsInteger) {z : Int} (h0 : 0 ≤ z)
    (h : z < 2 ^ (8 * d.size - 1)) :
    d.HasValue z := by
  simp only [IsInteger, List.mem_cons, List.not_mem_nil, or_false] at hd
  obtain rfl | rfl | rfl | rfl | rfl | rfl | rfl | rfl := hd <;> simp only [HasValue, Dtype.size] at h ⊢ <;> omega

theorem Dtype.IsInteger.size_mem {d : Dtype} (hd : d.IsInteger) : d.size = 1 ∨ d.size = 2 ∨ d.size = 4 ∨
    d.size = 8 := by
  simp only [IsInteger, List.mem_cons, List.not_mem_nil, or_false] at hd
  obtain rfl | rfl | rfl | rfl | rfl | rfl | rfl | rfl := hd <;> decide

theorem Dtype.IsInteger.hasValue_bit {d : Dtype} (hd : d.IsInteger) {z : Int} (hz : z = 0 ∨ z = 1) :
    d.HasValue z := by
  have hpow : (2 : Int) ^ 1 ≤ 2 ^ (8 * d.size - 1) := by
    apply pow_le_pow_right₀ (by norm_num)
    obtain h | h | h | h := hd.size_mem <;> omega
  exact hasValue_of_lt hd (by omega) (by omega)

theorem Dtype.bits_of_lt {d : Dtype} {z : Int} (h0 : 0 ≤ z) (h : z < 2 ^ (8 * d.size)) :
    (d.bits z : Int) = z := by
  rw [bits, Int.emod_eq_of_lt h0 h, Int.toNat_of_nonneg h0]

theorem Stored.low_word {d : Dtype} {a : MlxArray Int} {bytes : Int → Fin 256} (h : Stored d a bytes) {m k : Nat}
    (hd : d.size = 4 * m) (hm : 0 < m) (hk : k < a.size) (h0 : 0 ≤ a.data k) (hlt : a.data k < 2 ^ 32) :
    (number bytes (4 * (m * k : Nat)) 4 : Int) = a.data k := by
  have hpow : (2 : Int) ^ 32 ≤ 2 ^ (8 * d.size) := pow_le_pow_right₀ (by norm_num) (by omega)
  have hbits : (d.bits (a.data k) : Int) = a.data k := Dtype.bits_of_lt h0 (hlt.trans_le hpow)
  rw [Stored, hd] at h
  have hread := h.number hk hm
  rw [Nat.mul_zero, pow_zero, Nat.div_one, Nat.add_zero, Nat.mod_eq_of_lt (by omega), Nat.cast_mul] at hread
  rw [← hbits, ← hread]
  rfl

/-- Elements narrower than a word: the first word holds a part of the second element, or of
    what comes after the array. -/
theorem narrow_ne_zero {d : Dtype} (hd : d.IsInteger) (hlt : d.size < 4) (n : Nat) (data : Int → Int)
    (h1 : data 1 = 1) :
    number (table 1 d.size n fun k => d.bits (data k)) 0 4 ≠ 0 := by
  apply number_ne_zero hlt
  have hsize : 0 < d.size ∧ d.bits 1 = 1 := by
    simp only [Dtype.IsInteger, List.mem_cons, List.not_mem_nil, or_false] at hd
    obtain rfl | rfl | rfl | rfl | rfl | rfl | rfl | rfl := hd <;> decide
  rw [zero_add, table]
  split
  · apply Fin.ne_of_val_ne
    show digit (d.bits (data (d.size / d.size : Nat))) (d.size % d.size) ≠ 0
    rw [Nat.div_self hsize.1, Nat.cast_one, h1, hsize.2, Nat.mod_self]
    decide
  · decide

/-- In elements of two words, a word other than the first belongs to an earlier element. -/
theorem wide_eq_zero {d : Dtype} (hd : d.size = 8) {n w : Nat} (hw : 0 < w) (hn : w < n) (data : Int → Int)
    (hdata : ∀ k : Nat, k ≠ w → data k = 0) : number (table 0 d.size n fun k => d.bits (data k))
    (4 * w : Nat) 4 = 0 := by
  have hholds : Holds (table 0 (4 * 2) n fun k => d.bits (data k)) (4 * 2) n fun k => d.bits (data k) :=
    holds_table
  have hread := hholds.number (k := w / 2) (r := w % 2) (by omega) (Nat.mod_lt w (by decide))
  have hzero : d.bits 0 = 0 := by simp [Dtype.bits]
  rw [Nat.div_add_mod, hdata _ (by omega), hzero, Nat.zero_div, Nat.zero_mod] at hread
  rw [hd]
  exact hread

section
variable {F : Type} {p : PagedAttention F} {columns : Nat} {tableType lenType : Dtype}

theorem indexArrays_ofData {tables lens : Int → Int} (ht : ∀ i, tables i = 0 ∨ tables i = 1)
    (hint : tableType.IsInteger) (hl : ∀ i, lenType.HasValue (lens i)) (hpos : ∀ i, 0 ≤ lens i) :
    IndexArrays p columns tableType lenType (MlxArray.ofData [p.numSeqs, columns] tables)
      (MlxArray.ofData [p.numSeqs] lens) where
  tablesShape := rfl
  lensShape := rfl
  tablesContiguous := MlxArray.ofData_rowContiguous _ _
  lensContiguous := MlxArray.ofData_rowContiguous _ _
  tablesFit _ _ _ _ := hint.hasValue_bit (ht _)
  lensFit _ _ := hl _
  lengths _ _ := hpos _
  blocks s _ j _ _ := by
    have h : (MlxArray.ofData [p.numSeqs, columns] tables).get [s, j] = 0 ∨
      (MlxArray.ofData [p.numSeqs, columns] tables).get [s, j] = 1 := ht _
    omega

theorem stored_ofData (d : Dtype) (shape : List Nat) (data : Int → Int) (outside : Fin 256) :
    Stored d (MlxArray.ofData shape data) (table outside d.size shape.prod fun k => d.bits (data k)) :=
      holds_table

variable {b : AttentionBuffers F} {tables lens : MlxArray Int} {tableBytes lenBytes : Int → Fin 256}
  (hcols : p.maxNumBlocksPerSeq = columns)

namespace IndexArrays
variable (ha : IndexArrays p columns tableType lenType tables lens)
include ha

theorem get_len {s : Nat} (hs : s < p.numSeqs) : lens.get [s] = lens.data s ∧ s < lens.size := by
  have hin : List.Forall₂ (· < ·) [s] lens.shape := ha.lensShape ▸ .cons hs .nil
  refine ⟨by rw [ha.lensContiguous.get hin, ha.lensShape]; simp [Layout.flat], ?_⟩
  rw [MlxArray.size, ha.lensShape]
  simpa using hs

theorem get_block {s j : Nat} (hs : s < p.numSeqs) (hj : j < columns) :
    tables.get [s, j] = tables.data (s * columns + j : Nat) ∧ s * columns + j < tables.size := by
  have hin : List.Forall₂ (· < ·) [s, j] tables.shape := ha.tablesShape ▸ .cons hs (.cons hj .nil)
  refine ⟨by rw [ha.tablesContiguous.get hin, ha.tablesShape]; simp [Layout.flat], ?_⟩
  rw [MlxArray.size, ha.tablesShape]
  simpa using Layout.digit_lt hs hj

theorem len_read (hst : Stored lenType lens lenBytes) (hd : lenType.size = 4) {s : Nat} (hs : s < p.numSeqs) :
    (PagedAttention.contextLen (b.setInputArrays tableBytes lenBytes) s : Int) = lens.get [s] := by
  obtain ⟨hget, hk⟩ := ha.get_len hs
  have hread := hst.low_word (m := 1) hd Nat.one_pos hk (hget ▸ ha.lengths s hs)
    (hget ▸ (ha.lensFit s hs).small hd)
  rw [Nat.one_mul] at hread
  rw [hget, ← hread]
  rfl

include hcols in
/-- A block number is read as given if its word is the low word of its element. -/
theorem block_read (hst : Stored tableType tables tableBytes) {s j m : Nat} (hs : s < p.numSeqs)
    (hj : j < columns) (hlen : (j * p.blockSize : Nat) < lens.get [s]) (hd : tableType.size = 4 * m) (hm : 0 < m)
    (hlow : m * (s * columns + j) = s * columns + j) :
    (p.blockTable (b.setInputArrays tableBytes lenBytes) s j : Int) = tables.get [s, j] := by
  obtain ⟨hget, hk⟩ := ha.get_block hs hj
  obtain ⟨h0, hlt⟩ := hget ▸ ha.blocks s hs j hj hlen
  have hread := hst.low_word hd hm hk h0 (hlt.trans (by norm_num))
  rw [hlow] at hread
  rw [hget, ← hread, PagedAttention.blockTable, hcols]
  push_cast
  rfl

end IndexArrays

/-! ## Which element types are read as given -/

/-- All arrays that a call accepts are read as given, wherever they are in memory. -/
def AllReadAsGiven (call : MlxArray Int → MlxArray Int → Except String (PagedAttention F)) (p : PagedAttention F)
    (b : AttentionBuffers F) (columns : Nat) (tableType lenType : Dtype) : Prop :=
  ∀ tables lens, call tables lens = .ok p → IndexArrays p columns tableType lenType tables lens →
    ∀ tableBytes lenBytes, Stored tableType tables tableBytes → Stored lenType lens lenBytes →
      ReadAsGiven p (b.setInputArrays tableBytes lenBytes) tables lens

include hcols in
theorem readAsGiven_of_words (ha : IndexArrays p columns tableType lenType tables lens) (hblock : 0 < p.blockSize)
    (hcapacity : p.maxSeqLen ≤ columns * p.blockSize) (hl : lenType.size = 4)
    (ht : tableType.size = 4 ∨ tableType.size = 8 ∧ p.numSeqs = 1 ∧ p.maxSeqLen ≤ p.blockSize)
    (hst : Stored tableType tables tableBytes) (hsl : Stored lenType lens lenBytes) :
    ReadAsGiven p (b.setInputArrays tableBytes lenBytes) tables lens := by
  intro s hs
  have hlen : (PagedAttention.contextLen (b.setInputArrays tableBytes lenBytes) s : Int) = lens.get [s] :=
    ha.len_read hsl hl hs
  refine ⟨hlen, fun _ hmax j hj => ?_⟩
  have hvisit := (p.lt_numContextBlocks _ s hblock).mp hj
  have hj' : j < columns := Nat.lt_of_mul_lt_mul_right (hvisit.trans_le (hmax.trans hcapacity))
  have hgiven : (j * p.blockSize : Nat) < lens.get [s] := hlen ▸ Int.ofNat_lt.mpr hvisit
  obtain ht | ⟨ht, hone, hsmall⟩ := ht
  · exact ha.block_read hcols hst hs hj' hgiven (m := 1) ht Nat.one_pos (Nat.one_mul _)
  · -- one sequence with one block: the first word
    have hs0 : s = 0 := by omega
    have hj0 : j = 0 :=
      Nat.lt_one_iff.mp (Nat.lt_of_mul_lt_mul_right (by omega : j * p.blockSize < 1 * p.blockSize))
    refine ha.block_read hcols hst hs hj' hgiven (m := 2) ht Nat.two_pos ?_
    rw [hs0, hj0, Nat.zero_mul]

section
variable {call : MlxArray Int → MlxArray Int → Except String (PagedAttention F)}
  (hall : AllReadAsGiven call p b columns tableType lenType)
  (hcall : ∀ tables lens, tables.shape = [p.numSeqs, columns] → lens.shape = [p.numSeqs] →
    call tables lens = .ok p)
  (htable : tableType.IsInteger) (hlenType : lenType.IsInteger) (hseqs : 0 < p.numSeqs)
include hall hcall htable hlenType hseqs

theorem len_size_of_all : lenType.size = 4 := by
  have hread : ∀ (lens : Int → Int) (outside : Fin 256), (∀ i, lenType.HasValue (lens i)) → (∀ i, 0 ≤ lens i) →
      (number (table outside lenType.size p.numSeqs fun k => lenType.bits (lens k)) 0 4 : Int) = lens 0 := by
    intro lens outside hfit hpos
    have hsl := stored_ofData lenType [p.numSeqs] lens outside
    rw [List.prod_singleton] at hsl
    exact (hall _ _ (hcall _ _ rfl rfl) (indexArrays_ofData (fun _ => Or.inl rfl) htable hfit hpos)
      _ _ (stored_ofData tableType [p.numSeqs, columns] (fun _ => 0) 0) hsl 0 hseqs).1
  by_contra hne
  obtain hsize | hsize : lenType.size < 4 ∨ lenType.size = 8 := by
    have := hlenType.size_mem
    omega
  · have hzero := hread (fun i => if i = 0 then 0 else 1) 1 (fun i => hlenType.hasValue_bit (by split <;> simp))
      fun i => by split <;> decide
    exact narrow_ne_zero hlenType hsize p.numSeqs (fun i => if i = 0 then 0 else 1) rfl (Int.ofNat_inj.mp hzero)
  · -- the first length is `2 ^ 32`, the first word zero
    have hbig := hread (fun _ => 2 ^ 32) 0
      (fun _ => Dtype.hasValue_of_lt hlenType (by norm_num) (by rw [hsize]; norm_num)) fun _ => by norm_num
    have hholds : Holds (table 0 (4 * 2) p.numSeqs fun _ => lenType.bits (2 ^ 32)) (4 * 2) p.numSeqs fun _ =>
      lenType.bits (2 ^ 32) := holds_table
    have hbits : lenType.bits (2 ^ 32) = 2 ^ 32 := by
      rw [Dtype.bits, hsize]
      decide
    have hword := hholds.number hseqs Nat.two_pos
    rw [hbits] at hword
    rw [hsize] at hbig
    have hzero : number (table 0 8 p.numSeqs fun _ => lenType.bits (2 ^ 32)) 0 4 = 0 := by
      rw [hbits]
      exact hword
    rw [hzero] at hbig
    exact absurd hbig (by decide)

include hcols in
theorem table_size_of_all (hblock : 0 < p.blockSize) (hlenPos : 0 < p.maxSeqLen) (hlenLt : p.maxSeqLen < 2 ^ 31)
    (hcapacity : p.maxSeqLen ≤ columns * p.blockSize) :
    tableType.size = 4 ∨ tableType.size = 8 ∧ p.numSeqs = 1 ∧ p.maxSeqLen ≤ p.blockSize := by
  have hl := len_size_of_all hall hcall htable hlenType hseqs
  have hfit : lenType.HasValue p.maxSeqLen := Dtype.hasValue_of_lt hlenType (Int.natCast_nonneg _)
    (by rw [hl]; omega)
  -- every sequence is as long as it may be
  have hread : ∀ (tables : Int → Int) (outside : Fin 256), (∀ i, tables i = 0 ∨ tables i = 1) →
      ∀ s < p.numSeqs, ∀ j, j * p.blockSize < p.maxSeqLen →
        (number (table outside tableType.size (p.numSeqs * columns) fun k => tableType.bits (tables k))
          (4 * (s * columns + j : Nat)) 4 : Int) = tables (s * columns + j : Nat) := by
    intro tables outside hbit s hs j hj
    have ha : IndexArrays p columns tableType lenType (MlxArray.ofData [p.numSeqs, columns] tables)
        (MlxArray.ofData [p.numSeqs] fun _ => p.maxSeqLen) :=
      indexArrays_ofData hbit htable (fun _ => hfit) fun _ => Int.natCast_nonneg _
    have hst := stored_ofData tableType [p.numSeqs, columns] tables outside
    have hsl := stored_ofData lenType [p.numSeqs] (fun _ => p.maxSeqLen) 0
    obtain ⟨hlen, hblocks⟩ := hall _ _ (hcall _ _ rfl rfl) ha _ _ hst hsl s hs
    have hlen' := Int.ofNat_inj.mp hlen
    have hj' : j < columns := Nat.lt_of_mul_lt_mul_right (hj.trans_le hcapacity)
    have hvisit := hblocks (by omega) (by omega) j ((p.lt_numContextBlocks _ s hblock).mpr (by omega))
    rw [(ha.get_block hs hj').1, PagedAttention.blockTable, hcols] at hvisit
    have hprod : [p.numSeqs, columns].prod = p.numSeqs * columns := by simp
    rw [hprod] at hvisit
    exact_mod_cast hvisit
  by_contra hne
  obtain hsize | hsize : tableType.size < 4 ∨ tableType.size = 8 := by
    have := htable.size_mem
    omega
  · have hzero := hread (fun i => if i = 0 then 0 else 1) 1 (fun i => by split <;> simp) 0 hseqs 0 (by omega)
    rw [Nat.zero_mul] at hzero
    exact narrow_ne_zero htable hsize _ (fun i => if i = 0 then 0 else 1) rfl (Int.ofNat_inj.mp hzero)
  · -- a block number that is in no first word
    obtain ⟨s, hs, j, hj, hpos⟩ : ∃ s < p.numSeqs, ∃ j, j * p.blockSize < p.maxSeqLen ∧ 0 < s * columns + j := by
      by_cases hone : p.numSeqs = 1
      · exact ⟨0, hseqs, 1, by omega, by omega⟩
      · have hcolumns : 0 < columns := Nat.pos_of_mul_pos_right (hlenPos.trans_le hcapacity)
        exact ⟨1, by omega, 0, by omega, by omega⟩
    have hj' : j < columns := Nat.lt_of_mul_lt_mul_right (hj.trans_le hcapacity)
    have hone := hread (fun i => if i = (s * columns + j : Nat) then 1 else 0) 0
      (fun i => by split <;> simp) s hs j hj
    have hzero := wide_eq_zero hsize hpos (Layout.digit_lt hs hj')
      (fun i => if i = (s * columns + j : Nat) then 1 else 0) fun k hk => if_neg fun h => hk (Int.ofNat_inj.mp h)
    rw [Nat.cast_mul, Nat.cast_ofNat] at hzero
    rw [hzero, if_pos rfl] at hone
    exact absurd hone (by decide)

end

end

theorem pagedAttentionV1_congr {F Q C I : Type} [One F] {maxSmem : Nat} {dtype cacheDtype : Dtype}
    {query : MlxArray Q}
    {keyCache valueCache : MlxArray C} {tables tables' lens lens' : MlxArray I} {numKvHeads : Int} {scale : F}
    {blockSize maxSeqLen : Int} {alibiSlopes : Option (MlxArray F)} (ht : tables.shape = tables'.shape)
    (hl : lens.shape = lens'.shape) :
    pagedAttentionV1 maxSmem dtype cacheDtype query keyCache valueCache tables lens numKvHeads scale
      blockSize maxSeqLen
        alibiSlopes =
      pagedAttentionV1 maxSmem dtype cacheDtype query keyCache valueCache tables' lens' numKvHeads scale blockSize
        maxSeqLen alibiSlopes := by
  obtain ⟨shape, strides, aligned, data⟩ := tables
  obtain ⟨lenShape, lenStrides, lenAligned, lenData⟩ := lens
  dsimp only at ht hl
  subst ht hl
  rfl

/-- The arrays of all calls that are accepted with these shapes and integer types are read
    as given exactly if the words of the kernel are the elements, or the first words of
    them that alone are read. -/
theorem index_arrays_read_iff {F Q C : Type} [One F] {maxSmem : Nat} {dtype cacheDtype : Dtype}
    {query : MlxArray Q}
    {keyCache valueCache : MlxArray C} {blockTables contextLens : MlxArray Int} {numKvHeads : Int} {scale : F}
    {blockSize maxSeqLen : Int} {alibiSlopes : Option (MlxArray F)} {p : PagedAttention F}
    (h : pagedAttentionV1 maxSmem dtype cacheDtype query keyCache valueCache blockTables contextLens
      numKvHeads scale blockSize maxSeqLen alibiSlopes = .ok p)
    (hcols : blockTables.dim 1 < 2 ^ 31) {tableType lenType : Dtype} (htable : tableType.IsInteger)
    (hlen : lenType.IsInteger) (b : AttentionBuffers F) :
    AllReadAsGiven (fun tables lens => pagedAttentionV1 maxSmem dtype cacheDtype query keyCache
      valueCache tables lens
        numKvHeads scale blockSize maxSeqLen alibiSlopes) p b (blockTables.dim 1) tableType lenType ↔
      p.numSeqs = 0 ∨ lenType.size = 4 ∧
        (tableType.size = 4 ∨ tableType.size = 8 ∧ p.numSeqs = 1 ∧ p.maxSeqLen ≤ p.blockSize) := by
  obtain ⟨ha, _⟩ := accepted_of_ok h
  have hcols' : p.maxNumBlocksPerSeq = blockTables.dim 1 := by rw [ha.maxNumBlocksPerSeq, int32_natCast hcols]
  have hblock : 0 < p.blockSize := by
    have := ha.blockSize
    simp only [List.mem_cons, List.not_mem_nil, or_false] at this
    omega
  obtain ⟨hpos, hmax⟩ := ha.maxSeqLen
  have hlt : p.maxSeqLen < 2 ^ 31 := by exact_mod_cast hmax.trans_lt (int32_range _).2
  have hcapacity : p.maxSeqLen ≤ blockTables.dim 1 * p.blockSize := by
    rw [← Nat.cast_mul] at hmax
    exact Int.ofNat_le.mp (hmax.trans (int32_natCast_le _))
  constructor
  · intro hall
    refine or_iff_not_imp_left.mpr fun hne => ?_
    have hcall : ∀ tables lens : MlxArray Int, tables.shape = [p.numSeqs, blockTables.dim 1] →
      lens.shape = [p.numSeqs] →
        pagedAttentionV1 maxSmem dtype cacheDtype query keyCache valueCache tables lens numKvHeads scale blockSize
          maxSeqLen alibiSlopes = .ok p := fun tables lens ht hl => by
      rw [pagedAttentionV1_congr (ht.trans ha.blockTablesShape.symm) (hl.trans ha.contextLensShape.symm), h]
    have hseqs := Nat.pos_of_ne_zero hne
    exact ⟨len_size_of_all hall hcall htable hlen hseqs,
      table_size_of_all hcols' hall hcall htable hlen hseqs hblock hpos hlt hcapacity⟩
  · rintro (hzero | ⟨hl, ht⟩) tables lens _ hi tableBytes lenBytes hst hsl
    · intro s hs
      omega
    · exact readAsGiven_of_words hcols' hi hblock hcapacity hl ht hst hsl

/-- Two sequences with a block of eight positions each. -/
def twoSequences : Except String (PagedAttention Int) :=
  pagedAttentionV1 32768 .float32 .float32 (MlxArray.ofData [2, 1, 32] fun _ => (0 : Int))
    (MlxArray.ofData [1, 1, 8, 8, 4] fun _ => (0 : Int)) (MlxArray.ofData [1, 1, 32, 8] fun _ => 0)
    (MlxArray.ofData [2, 1] fun _ => (0 : Int)) (MlxArray.ofData [2] fun _ => (8 : Int)) 1 1 8 8 none

def noBuffers : AttentionBuffers Int := ⟨fun _ => 0, fun _ => 0, fun _ => 0, fun _ => 0, fun _ => 0, fun _ => 0⟩

theorem twoSequences_ok : twoSequences = .ok ⟨2, 1, 32, 8, 4, 1, 1, 1, 1, false, 32, 256, 256, 8, 1568⟩ := by
  decide +kernel

theorem index_arrays_read_iff_int32 :
    ∃ p, twoSequences = .ok p ∧ AllReadAsGiven (fun tables lens => pagedAttentionV1 32768 .float32 .float32
      (MlxArray.ofData [2, 1, 32] fun _ => (0 : Int)) (MlxArray.ofData [1, 1, 8, 8, 4] fun _ => (0 : Int))
      (MlxArray.ofData [1, 1, 32, 8] fun _ => 0) tables lens 1 1 8 8 none) p noBuffers 1 .int32 .int32 :=
  ⟨_, twoSequences_ok, (index_arrays_read_iff twoSequences_ok (by decide) (by decide) (by decide) noBuffers).mpr
    (Or.inr ⟨rfl, Or.inl rfl⟩)⟩

/-- The lengths 8 and 8 of type `int64`: the kernel takes the high half of the first for the
    second. -/
theorem second_length_reads_zero :
    ∃ p tables lens tableBytes lenBytes, twoSequences = .ok p ∧ IndexArrays p 1 .int32 .int64 tables lens ∧
      Stored .int32 tables tableBytes ∧ Stored .int64 lens lenBytes ∧ lens.get [1] = 8 ∧
      PagedAttention.contextLen (noBuffers.setInputArrays tableBytes lenBytes) 1 = 0 := by
  refine ⟨_, MlxArray.ofData [2, 1] fun _ => 0, MlxArray.ofData [2] fun _ => 8, table 0 4 2 fun _ => 0,
    table 0 8 2 fun _ => 8, twoSequences_ok,
    indexArrays_ofData (fun _ => Or.inl rfl) (by decide) (fun _ => ?_) (fun _ => by decide), ?_, ?_,
      rfl, by decide⟩
  · exact Dtype.hasValue_of_lt (by decide) (by decide) (by decide)
  · exact stored_ofData .int32 [2, 1] (fun _ => 0) 0
  · exact stored_ofData .int64 [2] (fun _ => 8) 0

end SglangMlx
