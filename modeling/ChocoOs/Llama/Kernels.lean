import ChocoOs.Lib.Triples
import ChocoOs.Llama.Caches

/-!
# What the kernels compute

The value of each kernel as a function of the vectors that it finds in memory, with the operations in
the order of the code. A vector is a function; the kernel says how many of its values there are.
-/

namespace ChocoOs.Llama
open ProgLib

variable {F : Type}

section values

variable (ops : FloatOps F)

/-- `a + f 0 + … + f (n - 1)`, added from the left. -/
def sumUpto (a : F) (f : Nat → F) : Nat → F
  | 0 => a
  | n + 1 => ops.add (sumUpto a f n) (f n)

/-- The largest of `v 0`, …, `v n`. -/
def maxUpto (v : Nat → F) : Nat → F
  | 0 => v 0
  | n + 1 => if ops.lt (maxUpto v n) (v (n + 1)) then v (n + 1) else maxUpto v n

/-- The vector divided by its root mean square, and weighted. -/
def normed (weight v : Nat → F) (size : Nat) : Nat → F :=
  let ss := sumUpto ops (ops.ofInt 0) (fun j => ops.mul (v j) (v j)) size
  let scale := ops.div (ops.ofInt 1)
    (ops.sqrtf_k (ops.add (ops.div ss (ops.ofInt size)) ops.epsilon))
  fun j => ops.mul (weight j) (ops.mul scale (v j))

/-- One of four interleaved sums of products. -/
def lane (row v : Nat → F) (r n : Nat) : F :=
  sumUpto ops (ops.ofInt 0) (fun t => ops.mul (row (4 * t + r)) (v (4 * t + r))) n

/-- The product of two vectors: four sums, and the products that are left. -/
def dot (row v : Nat → F) (n : Nat) : F :=
  sumUpto ops (ops.add (ops.add (lane ops row v 0 (n / 4)) (lane ops row v 1 (n / 4)))
      (ops.add (lane ops row v 2 (n / 4)) (lane ops row v 3 (n / 4))))
    (fun t => ops.mul (row (4 * (n / 4) + t)) (v (4 * (n / 4) + t))) (n % 4)

/-- The product of a matrix of rows of length `n` and a vector. -/
def matVec (w v : Nat → F) (n : Nat) : Nat → F := fun i => dot ops (fun j => w (i * n + j)) v n

/-- The exponential of a score, from which the largest score is subtracted. -/
def expScore (v : Nat → F) (size i : Nat) : F := ops.expf_k (ops.sub (v i) (maxUpto ops v (size - 1)))

def softmax (v : Nat → F) (size : Nat) : Nat → F := fun i =>
  ops.div (expScore ops v size i) (sumUpto ops (ops.ofInt 0) (expScore ops v size) size)

end values

/-! ## The kernels -/

/-- The first `n` cells from a pointer on hold a vector. -/
def Ptr.Holds (m : Ptr → Option F) (p : Ptr) (n : Nat) (v : Nat → F) : Prop :=
  ∀ i < n, m (p.at i) = some (v i)

theorem Ptr.at_injective (p : Ptr) : Function.Injective p.at := by
  intro i j h
  have hsnd : p.2 + i = p.2 + j := congrArg Prod.snd h
  omega

variable {ops : FloatOps F} {len : Buf → Nat} {m t : Ptr → Option F} {v : Nat → F}

theorem Ptr.at_ne {p q : Ptr} (h : p.1 ≠ q.1) (i j : Nat) : p.at i ≠ q.at j :=
  fun he => h (show (p.at i).1 = (q.at j).1 from congrArg Prod.fst he)

/-- What a loop over other cells has not changed. -/
theorem Ptr.Holds.of_sets {p o : Ptr} {n k : Nat} {v' : Nat → F} (h : p.Holds m n v)
    (hs : Cmd.Sets m t o.at k v') (hne : ∀ i j, j < k → p.at i ≠ o.at j) : p.Holds t n v :=
  fun i hi => (hs.frame _ fun j hj => hne i j hj).trans (h i hi)

/-- A loop over another buffer. -/
theorem Ptr.Holds.keep {p o : Ptr} {n k : Nat} {v' : Nat → F} (h : p.Holds m n v)
    (hs : Cmd.Sets m t o.at k v') (hne : p.1 ≠ o.1) : p.Holds t n v :=
  h.of_sets hs fun i j _ => Ptr.at_ne hne i j

theorem ends_rmsnorm {o x : Ptr} {weight : Nat → F} {size : Nat} (ho : o.Fits len size)
    (hx : x.Fits len size) (hv : x.Holds m size v) (hox : ∀ i j, i < j → x.at j ≠ o.at i) :
    (rmsnorm ops o x weight size).Ends (inBuf len) m fun _ t =>
      Cmd.Sets m t o.at size (normed ops weight v size) := by
  have hsum : (Cmd.foldUpto size (ops.ofInt 0) fun j ss => do
      let v ← Cmd.get (x.at j)
      return ops.add ss (ops.mul v v)).Ends (inBuf len) m fun a t =>
        a = sumUpto ops (ops.ofInt 0) (fun j => ops.mul (v j) (v j)) size ∧ t = m :=
    Cmd.Ends.foldUpto_read (sumUpto ops (ops.ofInt 0) fun j => ops.mul (v j) (v j)) fun j hj =>
      .get_bind (hx.inBuf hj) (hv j hj) (.done ⟨rfl, rfl⟩)
  refine hsum.bind ?_
  rintro ss t ⟨rfl, rfl⟩
  refine Cmd.Ends.fill o.at_injective fun j hj u hu => ?_
  -- the cells written so far are not read again
  have hread : u (x.at j) = some (v j) := by
    rw [hu.frame _ fun i hi => hox i j hi]
    exact hv j hj
  exact .get_bind (hx.inBuf hj) hread (.set (ho.inBuf hj) rfl)

theorem ends_rowGroups {x : Ptr} {row : Nat → F} {n : Nat} (hx : x.Fits len n)
    (hv : x.Holds m n v) : (rowGroups ops x row n).Ends (inBuf len) m fun a t =>
      a = (lane ops row v 0 (n / 4), lane ops row v 1 (n / 4), lane ops row v 2 (n / 4),
        lane ops row v 3 (n / 4)) ∧ t = m := by
  refine Cmd.Ends.foldUpto_read (fun i => (lane ops row v 0 i, lane ops row v 1 i,
    lane ops row v 2 i, lane ops row v 3 i)) fun i hi => ?_
  have h0 : 4 * i < n := by omega
  have h1 : 4 * i + 1 < n := by omega
  have h2 : 4 * i + 2 < n := by omega
  have h3 : 4 * i + 3 < n := by omega
  refine .get_bind (hx.inBuf h0) (hv _ h0) ?_
  refine .get_bind (hx.inBuf h1) (hv _ h1) ?_
  refine .get_bind (hx.inBuf h2) (hv _ h2) ?_
  exact .get_bind (hx.inBuf h3) (hv _ h3) (.done ⟨rfl, rfl⟩)

theorem ends_rowValue {x : Ptr} {row : Nat → F} {n : Nat} (hx : x.Fits len n)
    (hv : x.Holds m n v) : (rowValue ops x row n).Ends (inBuf len) m fun a t =>
      a = dot ops row v n ∧ t = m := by
  refine (ends_rowGroups hx hv).bind ?_
  rintro a t ⟨rfl, rfl⟩
  refine Cmd.Ends.foldUpto_read (sumUpto ops _ fun i =>
    ops.mul (row (4 * (n / 4) + i)) (v (4 * (n / 4) + i))) fun i hi => ?_
  have hlt : 4 * (n / 4) + i < n := by omega
  exact .get_bind (hx.inBuf hlt) (hv _ hlt) (.done ⟨rfl, rfl⟩)

theorem ends_matmul {xout x : Ptr} {w : Nat → F} {n d : Nat} (ho : xout.Fits len d)
    (hx : x.Fits len n) (hv : x.Holds m n v) (hne : x.1 ≠ xout.1) :
    (matmul ops xout x w n d).Ends (inBuf len) m fun _ t =>
      Cmd.Sets m t xout.at d (matVec ops w v n) := by
  refine Cmd.Ends.fill xout.at_injective fun i hi t ht => ?_
  have hread : x.Holds t n v := hv.keep ht hne
  refine (ends_rowValue hx hread).bind ?_
  rintro a u ⟨rfl, rfl⟩
  exact .set (ho.inBuf hi) rfl

/-- The loop of `llm_softmax` that finds the largest score. -/
theorem ends_max {x : Ptr} {size : Nat} (hpos : 0 < size) (hx : x.Fits len size)
    (hv : x.Holds m size v) :
    (Cmd.foldUpto (size - 1) (v 0) fun i max => do
      let v ← Cmd.get (x.at (i + 1))
      return if ops.lt max v then v else max).Ends (inBuf len) m fun a t =>
        a = maxUpto ops v (size - 1) ∧ t = m := by
  refine Cmd.Ends.foldUpto_read (maxUpto ops v) fun i hi => ?_
  have hlt : i + 1 < size := by omega
  exact .get_bind (hx.inBuf hlt) (hv _ hlt) (.done ⟨rfl, rfl⟩)

/-- The exponentials replace the scores one after the other. -/
theorem ends_exps {x : Ptr} {size : Nat} (hx : x.Fits len size) (hv : x.Holds m size v) :
    (Cmd.foldUpto size (ops.ofInt 0) fun i sum => do
      let v' ← Cmd.get (x.at i)
      let e := ops.expf_k (ops.sub v' (maxUpto ops v (size - 1)))
      Cmd.set (x.at i) e
      return ops.add sum e).Ends (inBuf len) m fun sum t =>
        sum = sumUpto ops (ops.ofInt 0) (expScore ops v size) size ∧
          Cmd.Sets m t x.at size (expScore ops v size) := by
  refine Cmd.Ends.foldUpto (I := fun i sum t =>
    sum = sumUpto ops (ops.ofInt 0) (expScore ops v size) i ∧
      Cmd.Sets m t x.at i (expScore ops v size)) ⟨rfl, .zero _ _ _⟩ ?_
  rintro i hi sum t ⟨rfl, ht⟩
  have hread : t (x.at i) = some (v i) := by
    rw [ht.frame _ fun j hj he => Nat.ne_of_gt hj (x.at_injective he)]
    exact hv i hi
  refine .get_bind (hx.inBuf hi) hread (.set_bind (hx.inBuf hi) (.done ⟨rfl, ?_⟩))
  exact ht.store x.at_injective

theorem ends_llmSoftmax {x : Ptr} {size : Nat} (hpos : 0 < size) (hx : x.Fits len size)
    (hv : x.Holds m size v) : (llmSoftmax ops x size).Ends (inBuf len) m fun _ t =>
      Cmd.Sets m t x.at size (softmax ops v size) := by
  refine .get_bind (hx.inBuf hpos) (hv 0 hpos) ?_
  refine (ends_max hpos hx hv).bind ?_
  rintro a t ⟨rfl, rfl⟩
  refine (ends_exps hx hv).bind ?_
  rintro sum u ⟨rfl, hu⟩
  have hdiv : (Cmd.forUpto size fun i => do
      let v' ← Cmd.get (x.at i)
      Cmd.set (x.at i) (ops.div v' (sumUpto ops (ops.ofInt 0) (expScore ops v size) size))).Ends
        (inBuf len) u fun _ w => Cmd.Sets u w x.at size (softmax ops v size) := by
    refine Cmd.Ends.fill x.at_injective fun i hi w hw => ?_
    have hread : w (x.at i) = some (expScore ops v size i) := by
      rw [hw.frame _ fun j hj he => Nat.ne_of_gt hj (x.at_injective he)]
      exact hu.value i hi
    exact .get_bind (hx.inBuf hi) hread (.set (hx.inBuf hi) rfl)
  exact hdiv.mono fun _ w hw => hu.trans hw

theorem ends_addTo {x y : Ptr} {n : Nat} {b : Nat → F} (hx : x.Fits len n) (hy : y.Fits len n)
    (hv : x.Holds m n v) (hb : y.Holds m n b) (hne : y.1 ≠ x.1) :
    (addTo ops x y n).Ends (inBuf len) m fun _ t =>
      Cmd.Sets m t x.at n fun i => ops.add (v i) (b i) := by
  refine Cmd.Ends.fill x.at_injective fun i hi t ht => ?_
  have hread : t (x.at i) = some (v i) := by
    rw [ht.frame _ fun j hj he => Nat.ne_of_gt hj (x.at_injective he)]
    exact hv i hi
  have hread' : t (y.at i) = some (b i) := by
    rw [ht.frame _ fun j _ => Ptr.at_ne hne _ _]
    exact hb i hi
  exact .get_bind (hx.inBuf hi) hread (.get_bind (hy.inBuf hi) hread' (.set (hx.inBuf hi) rfl))

/-- The two cells of a rotation. -/
theorem ends_rotate {vec : Ptr} {i : Nat} {fcr fci a b : F} {R : Unit → (Ptr → Option F) → Prop}
    (h0 : inBuf len (vec.at i) = true) (h1 : inBuf len (vec.at (i + 1)) = true)
    (ha : m (vec.at i) = some a) (hb : m (vec.at (i + 1)) = some b)
    (hR : R () (Cmd.store (Cmd.store m (vec.at i) (ops.sub (ops.mul a fcr) (ops.mul b fci)))
      (vec.at (i + 1)) (ops.add (ops.mul a fci) (ops.mul b fcr)))) :
    (rotate ops vec i fcr fci).Ends (inBuf len) m R :=
  .get_bind h0 ha (.get_bind h1 hb (.set_bind h0 (.set h1 hR)))

end ChocoOs.Llama
