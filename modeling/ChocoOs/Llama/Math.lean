import ChocoOs.Lib.Cells
import Mathlib.Data.Rat.Init

/-!
# The math kernels over the run state

The run state of `llm.c` are ten buffers of floats. The kernels are programs over their cells. The
arithmetic of floats is a parameter. `Safe` lemmas say what each kernel reads and writes.
-/

namespace ChocoOs.Llama
open ProgLib

/-- The operations on floats, which may be any. -/
structure FloatOps (F : Type) where
  ofInt : Int → F
  /-- `1e-5f` -/
  epsilon : F
  add : F → F → F
  sub : F → F → F
  mul : F → F → F
  div : F → F → F
  neg : F → F
  lt : F → F → Bool
  le : F → F → Bool
  eq : F → F → Bool
  sqrtf_k : F → F
  expf_k : F → F
  powf_k : F → F → F
  cosf_k : F → F
  sinf_k : F → F

/-- Exact arithmetic. The other functions may be any. -/
def exactOps (kernels : FloatOps ℚ) : FloatOps ℚ :=
  { kernels with
    ofInt := fun n => n
    add := (· + ·)
    sub := (· - ·)
    mul := (· * ·)
    div := (· / ·)
    neg := fun a => -a
    lt := fun a b => decide (a < b)
    le := fun a b => decide (a ≤ b)
    eq := fun a b => decide (a = b) }

/-- Some functions on exact numbers. -/
def testKernels : FloatOps ℚ where
  ofInt n := n
  epsilon := 1 / 100000
  add := (· + ·)
  sub := (· - ·)
  mul := (· * ·)
  div := (· / ·)
  neg a := -a
  lt a b := decide (a < b)
  le a b := decide (a ≤ b)
  eq a b := decide (a = b)
  sqrtf_k := id
  expf_k := id
  powf_k a _ := a
  cosf_k := id
  sinf_k := id

/-- The buffers of `RunState` (`llm.c:50-59`). -/
inductive Buf where
  | x | xb | xb2 | hb | hb2 | q | att | logits | keyCache | valueCache
  deriving DecidableEq

/-- A place in a buffer. -/
abbrev Ptr := Buf × Nat

/-- `p[i]` -/
def Ptr.at (p : Ptr) (i : Nat) : Ptr := (p.1, p.2 + i)

/-- The first `n` cells from a pointer on. -/
def Ptr.cells (p : Ptr) (n : Nat) : Set Ptr := {c | ∃ i < n, c = p.at i}

section kernels

variable {F : Type} (ops : FloatOps F)

/-- `rmsnorm` (`llm.c:123-133`). -/
def rmsnorm (o x : Ptr) (weight : Nat → F) (size : Nat) : Cmd Ptr F Unit := do
  let ss ← Cmd.foldUpto size (ops.ofInt 0) fun j ss => do
    let v ← Cmd.get (x.at j)
    return ops.add ss (ops.mul v v)
  let ss := ops.div (ops.ofInt 1)
    (ops.sqrtf_k (ops.add (ops.div ss (ops.ofInt size)) ops.epsilon))
  Cmd.forUpto size fun j => do
    let v ← Cmd.get (x.at j)
    Cmd.set (o.at j) (ops.mul (weight j) (ops.mul ss v))

/-- The four accumulators of a row of `matmul`, after all groups of four. -/
def rowGroups (x : Ptr) (row : Nat → F) (n : Nat) : Cmd Ptr F (F × F × F × F) :=
  Cmd.foldUpto (n / 4) (ops.ofInt 0, ops.ofInt 0, ops.ofInt 0, ops.ofInt 0) fun t a => do
    let x0 ← Cmd.get (x.at (4 * t))
    let x1 ← Cmd.get (x.at (4 * t + 1))
    let x2 ← Cmd.get (x.at (4 * t + 2))
    let x3 ← Cmd.get (x.at (4 * t + 3))
    return (ops.add a.1 (ops.mul (row (4 * t)) x0), ops.add a.2.1 (ops.mul (row (4 * t + 1)) x1),
      ops.add a.2.2.1 (ops.mul (row (4 * t + 2)) x2), ops.add a.2.2.2 (ops.mul (row (4 * t + 3)) x3))

/-- The value of a row of `matmul`. -/
def rowValue (x : Ptr) (row : Nat → F) (n : Nat) : Cmd Ptr F F := do
  let a ← rowGroups ops x row n
  Cmd.foldUpto (n % 4) (ops.add (ops.add a.1 a.2.1) (ops.add a.2.2.1 a.2.2.2)) fun t val => do
    let v ← Cmd.get (x.at (4 * (n / 4) + t))
    return ops.add val (ops.mul (row (4 * (n / 4) + t)) v)

/-- `matmul` (`llm.c:137-156`). -/
def matmul (xout x : Ptr) (w : Nat → F) (n d : Nat) : Cmd Ptr F Unit :=
  Cmd.forUpto d fun i => do
    let val ← rowValue ops x (fun j => w (i * n + j)) n
    Cmd.set (xout.at i) val

/-- `llm_softmax` (`llm_common.c:10-24`). -/
def llmSoftmax (x : Ptr) (size : Nat) : Cmd Ptr F Unit := do
  let max ← Cmd.get (x.at 0)
  let max ← Cmd.foldUpto (size - 1) max fun i max => do
    let v ← Cmd.get (x.at (i + 1))
    return if ops.lt max v then v else max
  let sum ← Cmd.foldUpto size (ops.ofInt 0) fun i sum => do
    let v ← Cmd.get (x.at i)
    let e := ops.expf_k (ops.sub v max)
    Cmd.set (x.at i) e
    return ops.add sum e
  Cmd.forUpto size fun i => do
    let v ← Cmd.get (x.at i)
    Cmd.set (x.at i) (ops.div v sum)

/-- `x[i] += y[i]` for `i < n`. -/
def addTo (x y : Ptr) (n : Nat) : Cmd Ptr F Unit :=
  Cmd.forUpto n fun i => do
    let a ← Cmd.get (x.at i)
    let b ← Cmd.get (y.at i)
    Cmd.set (x.at i) (ops.add a b)

/-- One pair of a rotation (`llm.c:198-202`). -/
def rotate (vec : Ptr) (i : Nat) (fcr fci : F) : Cmd Ptr F Unit := do
  let v0 ← Cmd.get (vec.at i)
  let v1 ← Cmd.get (vec.at (i + 1))
  Cmd.set (vec.at i) (ops.sub (ops.mul v0 fcr) (ops.mul v1 fci))
  Cmd.set (vec.at (i + 1)) (ops.add (ops.mul v0 fci) (ops.mul v1 fcr))

end kernels

/-! ## What the kernels read and write -/

section safe

variable {F : Type} {ops : FloatOps F} {len : Buf → Nat} {D : Set Ptr}

/-- The cells of buffers of these lengths. -/
def inBuf (len : Buf → Nat) (c : Ptr) : Bool := decide (c.2 < len c.1)

/-- `n` cells from `p` on are in their buffer. -/
def Ptr.Fits (len : Buf → Nat) (p : Ptr) (n : Nat) : Prop := p.2 + n ≤ len p.1

theorem Ptr.Fits.inBuf {p : Ptr} {n i : Nat} (h : p.Fits len n) (hi : i < n) :
    inBuf len (p.at i) = true := by
  unfold Ptr.Fits at h
  exact decide_eq_true (show p.2 + i < len p.1 by omega)

theorem Ptr.at_mem {p : Ptr} {n i : Nat} (hi : i < n) : p.at i ∈ p.cells n := ⟨i, hi, rfl⟩

/-- Reading `p[i]`. -/
theorem safe_get {p : Ptr} {n i : Nat} (hp : p.Fits len n) (hi : i < n) (hD : p.cells n ⊆ D) :
    (Cmd.get (p.at i) : Cmd Ptr F F).Safe (inBuf len) D D :=
  .get (hp.inBuf hi) (hD (Ptr.at_mem hi))

/-- Writing `p[i]`. -/
theorem safe_set {p : Ptr} {n i : Nat} (hp : p.Fits len n) (hi : i < n) (v : F) :
    (Cmd.set (p.at i) v).Safe (inBuf len) D (D ∪ {p.at i}) :=
  .set v (hp.inBuf hi)

/-- A loop that writes one cell after another. -/
theorem safe_fill {o : Ptr} {n : Nat} {body : Nat → Cmd Ptr F Unit}
    (h : ∀ i < n, (body i).Safe (inBuf len) D {o.at i}) :
    (Cmd.forUpto n body).Safe (inBuf len) D (D ∪ o.cells n) := by
  have hround : ∀ i < n, (body i).Safe (inBuf len) (D ∪ {c | ∃ k < i, c ∈ ({o.at k} : Set Ptr)})
      {o.at i} := fun i hi => (h i hi).mono Set.subset_union_left subset_rfl
  have hloop := Cmd.Safe.forUpto_union hround
  refine hloop.mono subset_rfl (Set.union_subset_union_right _ ?_)
  rintro c ⟨i, hi, rfl⟩
  exact ⟨i, hi, rfl⟩

theorem safe_rmsnorm {o x : Ptr} {weight : Nat → F} {size : Nat} (ho : o.Fits len size)
    (hx : x.Fits len size) (hD : x.cells size ⊆ D) :
    (rmsnorm ops o x weight size).Safe (inBuf len) D (D ∪ o.cells size) := by
  refine Cmd.Safe.bind (Cmd.Safe.foldUpto_read fun j hj ss => ?_) fun ss => safe_fill fun j hj => ?_
  · exact (safe_get hx hj hD).bind fun v => .done _
  · exact (safe_get hx hj hD).bind fun v => (safe_set ho hj _).mono subset_rfl Set.subset_union_right

theorem safe_rowGroups {x : Ptr} {row : Nat → F} {n : Nat} (hx : x.Fits len n)
    (hD : x.cells n ⊆ D) : (rowGroups ops x row n).Safe (inBuf len) D D := by
  refine Cmd.Safe.foldUpto_read fun t ht a => ?_
  exact (safe_get hx (by omega) hD).bind fun _ => (safe_get hx (by omega) hD).bind fun _ =>
    (safe_get hx (by omega) hD).bind fun _ => (safe_get hx (by omega) hD).bind fun _ => .done _

theorem safe_rowValue {x : Ptr} {row : Nat → F} {n : Nat} (hx : x.Fits len n)
    (hD : x.cells n ⊆ D) : (rowValue ops x row n).Safe (inBuf len) D D := by
  refine (safe_rowGroups hx hD).bind fun a => Cmd.Safe.foldUpto_read fun t ht val => ?_
  exact (safe_get hx (by omega) hD).bind fun v => .done _

theorem safe_matmul {xout x : Ptr} {w : Nat → F} {n d : Nat} (ho : xout.Fits len d)
    (hx : x.Fits len n) (hD : x.cells n ⊆ D) :
    (matmul ops xout x w n d).Safe (inBuf len) D (D ∪ xout.cells d) := by
  refine safe_fill fun i hi => (safe_rowValue hx hD).bind fun val => ?_
  exact (safe_set ho hi _).mono subset_rfl Set.subset_union_right

theorem safe_llmSoftmax {x : Ptr} {size : Nat} (hpos : 0 < size) (hx : x.Fits len size)
    (hD : x.cells size ⊆ D) : (llmSoftmax ops x size).Safe (inBuf len) D D := by
  refine (safe_get hx hpos hD).bind fun _ => ?_
  refine Cmd.Safe.bind (Cmd.Safe.foldUpto_read fun i hi _ => ?_) fun _ => ?_
  · exact (safe_get hx (by omega) hD).bind fun _ => .done _
  refine Cmd.Safe.bind (Cmd.Safe.foldUpto_read fun i hi _ => ?_) fun _ => ?_
  · exact (safe_get hx hi hD).bind fun _ =>
      ((safe_set hx hi _).mono subset_rfl Set.subset_union_left).bind fun _ => .done _
  · refine (safe_fill (o := x) fun i hi => ?_).mono subset_rfl Set.subset_union_left
    exact (safe_get hx hi hD).bind fun _ => (safe_set hx hi _).mono subset_rfl Set.subset_union_right

theorem safe_addTo {x y : Ptr} {n : Nat} (hx : x.Fits len n) (hy : y.Fits len n)
    (hxD : x.cells n ⊆ D) (hyD : y.cells n ⊆ D) : (addTo ops x y n).Safe (inBuf len) D D := by
  refine (safe_fill (o := x) fun i hi => ?_).mono subset_rfl Set.subset_union_left
  exact (safe_get hx hi hxD).bind fun _ => (safe_get hy hi hyD).bind fun _ =>
    (safe_set hx hi _).mono subset_rfl Set.subset_union_right

theorem safe_rotate {vec : Ptr} {n i : Nat} {fcr fci : F} (hv : vec.Fits len n) (hi : i + 1 < n)
    (hD : vec.cells n ⊆ D) : (rotate ops vec i fcr fci).Safe (inBuf len) D D := by
  refine (safe_get hv (by omega) hD).bind fun _ => (safe_get hv hi hD).bind fun _ => ?_
  refine ((safe_set hv (by omega) _).mono subset_rfl Set.subset_union_left).bind fun _ => ?_
  exact (safe_set hv hi _).mono subset_rfl Set.subset_union_left

end safe

end ChocoOs.Llama
