import SglangMlx.Lib.Layout

/- An MLX array as a Metal kernel gets it: a buffer, read from the array's offset on,
   with a shape and a stride for each axis. A view (a transpose, a slice, a
   broadcast) is the same buffer under other strides. -/
namespace SglangMlx

structure MlxArray (α : Type) where
  shape : List Nat
  /-- In elements. -/
  strides : List Int
  aligned : strides.length = shape.length
  /-- The buffer, from the first element on. -/
  data : Int → α

namespace MlxArray
variable {α : Type}

/-- `a.shape(i)`. -/
def dim (a : MlxArray α) (i : Nat) : Nat := a.shape.getD i 0

theorem shape_eq {a : MlxArray α} {n : Nat} (h : a.shape.length = n) : a.shape = (List.range n).map a.dim := by
  subst h
  apply List.ext_getElem
  · simp
  · intro i h1 h2
    simp [dim, h1]

/-- `a.strides(i)`. -/
def stride (a : MlxArray α) (i : Nat) : Int := a.strides.getD i 0

/-- `a.size()`. -/
def size (a : MlxArray α) : Nat := a.shape.prod

/-- The element at an index. -/
def get (a : MlxArray α) (idx : List Nat) : α := a.data (Layout.place a.strides idx)

/-- Every element is at its row-major place. The stride of an axis of size 1 may be
    anything, as for the flag of MLX. -/
def RowContiguous (a : MlxArray α) : Prop :=
  ∀ idx, List.Forall₂ (· < ·) idx a.shape → Layout.place a.strides idx = Layout.flat a.shape idx

/-- An array made from its elements in row-major order. -/
def ofData (shape : List Nat) (data : Int → α) : MlxArray α where
  shape
  strides := Layout.rowStrides shape
  aligned := Layout.rowStrides_length shape
  data

theorem ofData_rowContiguous (shape : List Nat) (data : Int → α) : (ofData shape data).RowContiguous :=
  fun _ hi => Layout.place_rowStrides hi

theorem RowContiguous.get {a : MlxArray α} (h : a.RowContiguous) {idx : List Nat}
    (hi : List.Forall₂ (· < ·) idx a.shape) : a.get idx = a.data (Layout.flat a.shape idx) := by
  rw [MlxArray.get, h idx hi]

theorem RowContiguous.sameStrides {a : MlxArray α} (h : a.RowContiguous) (hpos : ∀ m ∈ a.shape, 0 < m) :
    Layout.SameStrides a.shape a.strides (Layout.rowStrides a.shape) :=
  (Layout.place_eq_iff a.aligned (Layout.rowStrides_length a.shape) hpos).mp fun idx hidx =>
    (h idx hidx).trans (Layout.place_rowStrides hidx).symm

theorem RowContiguous.stride_zero {a : MlxArray α} (h : a.RowContiguous) {n : Nat} {shape : List Nat}
    (hs : a.shape = n :: shape) (hn : 1 < n) (hpos : ∀ m ∈ shape, 0 < m) : a.stride 0 = (shape.prod : Nat) := by
  have hall : ∀ m ∈ a.shape, 0 < m := by
    rw [hs]
    exact List.forall_mem_cons.mpr ⟨Nat.zero_lt_of_lt hn, hpos⟩
  have hsame := h.sameStrides hall
  have hlen := a.aligned
  rw [hs] at hsame hlen
  rw [stride]
  obtain ⟨s, strides, heq⟩ := List.exists_cons_of_length_eq_add_one hlen
  rw [heq] at hsame ⊢
  exact hsame.1 hn

end MlxArray

end SglangMlx
