import PlantOS.Common.AffineNet
import PlantOS.User.Matrix

/-!
# Training a network

Model of `nn_forward`, `nn_loss` and `nn_backward` for layers with `ACT_NONE` and the loss `LOSS_MSE`, with
exact numbers. For `ACT_NONE`, `act_forward` copies its argument and `act_backward_inplace` does nothing. The
matrices have room for the batch, and the allocation of `new_delta` succeeds.

The layers are a chain of affine maps. In the rows and columns that are in use, `nn_forward` computes the
results of the maps (`Ran`), and the scratch matrix of `nn_backward` holds the gradient of the loss in the
result of the layer that is next (`backLoop_spec`).

Reference: `user/libc/nn.c`, `user/libc/matrix.c`.
-/

namespace PlantOS.User.Train

open Finset AffineNet

/-- `nn_layer_t`. -/
structure DenseLayer where
  inSize : ℕ
  outSize : ℕ
  W : Mat
  b : Mat
  z : Mat
  a : Mat
  dW : Mat
  db : Mat

/-- The matrices have the sizes of `nn_build`. -/
structure DenseLayer.Built (l : DenseLayer) : Prop where
  rows_W : l.W.rows = l.outSize
  cols_W : l.W.cols = l.inSize
  cols_b : l.b.cols = 1
  cols_dW : l.dW.cols = l.inSize
  cols_db : l.db.cols = 1

/-- A round of `nn_forward`. -/
def forwardLayer (batch : ℕ) (l : DenseLayer) (prev : Mat) : DenseLayer :=
  let z := l.z.resize l.outSize batch
  let a := l.a.resize l.outSize batch
  let z := (l.W.mul prev z).addBias l.b
  { l with z := z, a := a.fill (z.rows * z.cols) z.data }

/-- The layers after `nn_forward`; the result is the `a` of the last one. -/
def nnForward (batch : ℕ) : List DenseLayer → Mat → List DenseLayer
  | [], _ => []
  | l :: ls, prev =>
    let l := forwardLayer batch l prev
    l :: nnForward batch ls l.a

/-- `nn_loss`. -/
def nnLoss (output target : Mat) (batch : ℕ) : ℚ :=
  let n := output.rows * batch
  loop n (fun i loss =>
    let e := output.data i - target.data i
    loss + e * e) 0 / n

/-- The loss of the result of a network; a network without layers has none. -/
def netLoss (batch : ℕ) (input target : Mat) (layers : List DenseLayer) : ℚ :=
  match (nnForward batch layers input).getLast? with
  | none => 0
  | some l => nnLoss l.a target batch

/-- The gradients of a layer, from the matrix `delta`. -/
def setGradients (l : DenseLayer) (delta prevA : Mat) : DenseLayer :=
  { l with dW := delta.mulBt prevA l.dW, db := delta.sumCols l.db }

/-- `delta` for the layer before `l`: `new_delta` is computed and copied. -/
def nextDelta (batch : ℕ) (l : DenseLayer) (delta : Mat) : Mat :=
  let newDelta := l.W.mulAt delta (Mat.alloc l.inSize batch)
  (delta.resize newDelta.rows newDelta.cols).fill (newDelta.rows * newDelta.cols) newDelta.data

/-- The loop of `nn_backward`, from the last layer on. -/
def backLoop (batch : ℕ) (input : Mat) : Mat → List DenseLayer → List DenseLayer
  | _, [] => []
  | delta, [l] => [setGradients l delta input]
  | delta, l :: prev :: ls =>
    setGradients l delta prev.a :: backLoop batch input (nextDelta batch l delta) (prev :: ls)

/-- The layers after `nn_backward`. -/
def nnBackward (batch : ℕ) (input target delta : Mat) (layers : List DenseLayer) : List DenseLayer :=
  match layers.getLast? with
  | none => layers
  | some out =>
    let n := out.outSize * batch
    let delta := (delta.resize out.outSize batch).fill n fun i => 2 * (out.a.data i - target.data i) / n
    (backLoop batch input delta layers.reverse).reverse

/-! ## Entries in use -/

/-- A matrix of the given size whose entries are those of `x`. -/
structure Agrees (m : Mat) (rows cols : ℕ) (x : ℕ → ℕ → ℚ) : Prop where
  rows_eq : m.rows = rows
  cols_eq : m.cols = cols
  get_eq : ∀ i < rows, ∀ c < cols, m.get i c = x i c

/-- The affine map of a layer. -/
def DenseLayer.affine (l : DenseLayer) : Layer ℚ where
  out := l.outSize
  inn := l.inSize
  W i k := if k < l.inSize then l.W.get i k else 0
  b := l.b.data

/-- The numbers of a target for a batch. -/
def targetEntries (batch : ℕ) (target : Mat) (i c : ℕ) : ℚ := target.data (i * batch + c)

variable {batch : ℕ} {input : Mat} {l : DenseLayer} {ls : List DenseLayer} {x : ℕ → ℕ → ℚ}

theorem Agrees.of_fill {C : Mat} {rows cols : ℕ} {v : ℕ → ℚ} (hrows : C.rows = rows) (hcols : C.cols = cols)
    (h : ∀ i < rows, ∀ c < cols, v (i * cols + c) = x i c) : Agrees (C.fill (rows * cols) v) rows cols x := by
  obtain ⟨hrows', hcols'⟩ := Mat.fill_cols (rows * cols) v C
  refine ⟨hrows'.trans hrows, hcols'.trans hcols, fun i hi c hc => ?_⟩
  have hlt : i * cols + c < rows * cols :=
    calc i * cols + c < i * cols + cols := Nat.add_lt_add_left hc _
      _ = (i + 1) * cols := (Nat.succ_mul i cols).symm
      _ ≤ rows * cols := Nat.mul_le_mul_right cols hi
  rw [Mat.get, hcols', hcols, Mat.fill_data, if_pos hlt, h i hi c hc]

theorem affine_W {i k : ℕ} (hk : k < l.inSize) : l.affine.W i k = l.W.get i k := if_pos hk

/-! ## Forward -/

theorem forwardLayer_agrees {prev : Mat} (hl : l.Built) (hprev : Agrees prev l.inSize batch x) :
    Agrees (forwardLayer batch l prev).a l.outSize batch (l.affine.map x) := by
  obtain ⟨hrows₁, hcols₁⟩ := l.W.mul_cols prev (l.z.resize l.outSize batch)
  obtain ⟨hrows₂, hcols₂⟩ := (l.W.mul prev (l.z.resize l.outSize batch)).addBias_cols l.b
  have hrows : (l.W.mul prev (l.z.resize l.outSize batch)).rows = l.outSize := hrows₁
  have hcols : (l.W.mul prev (l.z.resize l.outSize batch)).cols = batch := hcols₁
  rw [forwardLayer]
  dsimp only
  rw [hrows₂, hcols₂, hrows, hcols]
  refine .of_fill rfl rfl fun i hi c hc => ?_
  have hget := Mat.get_addBias (i := i) (j := c) l.b (hi.trans_eq hrows.symm) (hc.trans_eq hcols.symm)
  rw [Mat.get, hcols₂, hcols, Mat.get_mul hprev.cols_eq (by rw [hl.rows_W]; exact hi) hc, hl.cols_W] at hget
  rw [hget, Layer.map, Layer.linear]
  refine congrArg (· + l.b.data i) (sum_congr rfl fun k hk => ?_)
  rw [affine_W (mem_range.1 hk), hprev.get_eq k (mem_range.1 hk) c hc]

/-- The results of `nn_forward` for the argument `x`. -/
def Ran (batch : ℕ) : (ℕ → ℕ → ℚ) → List DenseLayer → Prop
  | _, [] => True
  | x, l :: ls => l.Built ∧ Agrees l.a l.outSize batch (l.affine.map x) ∧ Ran batch (l.affine.map x) ls

theorem nnForward_ran {prev : Mat} {m : ℕ} (hbuilt : ∀ l ∈ ls, l.Built)
    (hsizes : Chain m (ls.map DenseLayer.affine)) (hprev : Agrees prev m batch x) :
    Ran batch x (nnForward batch ls prev) ∧
      (nnForward batch ls prev).map DenseLayer.affine = ls.map DenseLayer.affine := by
  induction ls generalizing prev m x with
  | nil => exact ⟨trivial, rfl⟩
  | cons l ls ih =>
    obtain ⟨hin, hsizes⟩ := hsizes
    have hl := hbuilt l List.mem_cons_self
    have ha := forwardLayer_agrees hl (hin ▸ hprev : Agrees prev l.affine.inn batch x)
    obtain ⟨hran, haffine⟩ := ih (fun k hk => hbuilt k (List.mem_cons_of_mem _ hk)) hsizes ha
    exact ⟨⟨⟨hl.1, hl.2, hl.3, hl.4, hl.5⟩, ha, hran⟩, congrArg (l.affine :: ·) haffine⟩

theorem ran_append {A B : List DenseLayer} :
    Ran batch x (A ++ B) ↔ Ran batch x A ∧ Ran batch (eval (A.map DenseLayer.affine) x) B := by
  induction A generalizing x with
  | nil => exact (true_and _).symm.to_iff
  | cons l A ih => rw [List.cons_append, Ran, ih, Ran, and_assoc, and_assoc]; rfl

theorem sum_grid (rows cols : ℕ) (f : ℕ → ℚ) :
    ∑ p ∈ range (rows * cols), f p = ∑ i ∈ range rows, ∑ c ∈ range cols, f (i * cols + c) := by
  induction rows with
  | zero => simp
  | succ rows ih => rw [Nat.succ_mul, sum_range_add, ih, sum_range_succ]

theorem nnLoss_eq {y : Mat} {rows : ℕ} (target : Mat) (h : Agrees y rows batch x) :
    nnLoss y target batch = meanSquare batch (targetEntries batch target) rows x := by
  rw [nnLoss, h.rows_eq]
  dsimp only
  rw [← Mat.dot, Mat.dot_eq_sum, sum_grid, meanSquare]
  refine congrArg (· / _) (sum_congr rfl fun i hi => sum_congr rfl fun c hc => ?_)
  have hget := h.get_eq i (mem_range.1 hi) c (mem_range.1 hc)
  rw [Mat.get, h.cols_eq] at hget
  rw [hget, ← sq]
  rfl

/-- The loss that the program computes is that of the network. -/
theorem netLoss_eq {m : ℕ} (target : Mat) (hbuilt : ∀ l ∈ ls, l.Built)
    (hsizes : Chain m (ls.map DenseLayer.affine)) (hne : ls ≠ []) (hinput : Agrees input m batch x) :
    netLoss batch input target ls =
      loss batch (targetEntries batch target) m (ls.map DenseLayer.affine) x := by
  obtain ⟨hran, haffine⟩ := nnForward_ran hbuilt hsizes hinput
  rw [netLoss, ← haffine]
  obtain h | ⟨A, l, h⟩ := (nnForward batch ls input).eq_nil_or_concat
  · cases ls with
    | nil => exact absurd rfl hne
    | cons => cases h
  · rw [List.concat_eq_append] at h
    rw [h] at hran ⊢
    obtain ⟨-, ⟨-, hlast, -⟩⟩ := ran_append.1 hran
    rw [List.getLast?_concat]
    dsimp only
    rw [nnLoss_eq target hlast, loss, List.map_append, eval_append, outRows_append]
    rfl

/-! ## Backward -/

/-- The gradients of a layer with the argument `y`, for the gradient `δ` in its result. -/
def HasGradient (batch : ℕ) (l' l : DenseLayer) (δ y : ℕ → ℕ → ℚ) : Prop :=
  (∀ i < l.outSize, ∀ j < l.inSize, l'.dW.get i j = ∑ c ∈ range batch, δ i c * y j c) ∧
    ∀ i < l.outSize, l'.db.get i 0 = ∑ c ∈ range batch, δ i c

theorem setGradients_hasGradient {delta prev : Mat} {δ y : ℕ → ℕ → ℚ} (hl : l.Built)
    (hdelta : Agrees delta l.outSize batch δ) (hprev : Agrees prev l.inSize batch y) :
    HasGradient batch (setGradients l delta prev) l δ y := by
  constructor
  · intro i hi j hj
    rw [setGradients]
    dsimp only
    rw [Mat.get_mulBt (hprev.rows_eq.trans hl.cols_dW.symm) (by rw [hdelta.rows_eq]; exact hi)
      (by rw [hl.cols_dW]; exact hj), hdelta.cols_eq]
    refine sum_congr rfl fun c hc => ?_
    rw [hdelta.get_eq i hi c (mem_range.1 hc)]
    exact congrArg (δ i c * ·) (hprev.get_eq j hj c (mem_range.1 hc))
  · intro i hi
    have hcols : (delta.sumCols l.db).cols = 1 := (Mat.fill_cols ..).2.trans hl.cols_db
    have hdata := delta.sumCols_data l.db (by rw [hdelta.rows_eq]; exact hi)
    rw [setGradients, Mat.get, hcols, Nat.mul_one, Nat.add_zero, hdata, hdelta.cols_eq]
    exact sum_congr rfl fun c hc => hdelta.get_eq i hi c (mem_range.1 hc)

theorem nextDelta_agrees {delta : Mat} {δ : ℕ → ℕ → ℚ} (hl : l.Built)
    (hdelta : Agrees delta l.outSize batch δ) :
    Agrees (nextDelta batch l delta) l.inSize batch (l.affine.back δ) := by
  obtain ⟨hrows, hcols⟩ := l.W.mulAt_cols delta (Mat.alloc l.inSize batch)
  rw [nextDelta, hrows, hcols]
  refine .of_fill rfl rfl fun k hk c hc => ?_
  have hget := Mat.get_mulAt (A := l.W) (C := Mat.alloc l.inSize batch) hdelta.cols_eq
    (by rw [hl.cols_W]; exact hk) hc
  rw [Mat.get, hcols] at hget
  refine hget.trans ?_
  rw [hl.rows_W, Layer.back]
  refine sum_congr rfl fun i hi => ?_
  rw [affine_W hk, hdelta.get_eq i (mem_range.1 hi) c hc]

/-- A round of the loop. -/
theorem backLoop_concat {A : List DenseLayer} {m : ℕ} {delta : Mat} {δ : ℕ → ℕ → ℚ}
    (hinput : Agrees input m batch x) (hran : Ran batch x (A ++ [l]))
    (hsizes : Chain m ((A ++ [l]).map DenseLayer.affine)) (hdelta : Agrees delta l.outSize batch δ) :
    ∃ l' next, backLoop batch input delta (A ++ [l]).reverse = l' :: backLoop batch input next A.reverse ∧
      HasGradient batch l' l δ (eval (A.map DenseLayer.affine) x) ∧
      (A ≠ [] → Agrees next l.inSize batch (l.affine.back δ)) := by
  obtain ⟨hA, hl, -, -⟩ := ran_append.1 hran
  rw [List.map_append, chain_append] at hsizes
  have hin : l.inSize = outRows m (A.map DenseLayer.affine) := hsizes.2.1
  rw [List.reverse_append]
  obtain rfl | ⟨A, p, rfl⟩ := A.eq_nil_or_concat
  · exact ⟨_, delta, rfl, setGradients_hasGradient hl hdelta (hin ▸ hinput), fun h => absurd rfl h⟩
  · rw [List.concat_eq_append] at hA hin ⊢
    obtain ⟨-, -, hp, -⟩ := ran_append.1 hA
    rw [List.map_append, outRows_append] at hin
    rw [List.map_append, eval_append]
    have hprev : Agrees p.a l.inSize batch (p.affine.map (eval (A.map DenseLayer.affine) x)) := hin ▸ hp
    refine ⟨setGradients l delta p.a, nextDelta batch l delta, ?_, setGradients_hasGradient hl hdelta hprev,
      fun _ => nextDelta_agrees hl hdelta⟩
    rw [List.reverse_append]
    rfl

/-- The loop sets the gradients of all layers, where `B` are the layers behind it. -/
theorem backLoop_spec {A B : List DenseLayer} {m : ℕ} {delta : Mat} {t : ℕ → ℕ → ℚ}
    (hinput : Agrees input m batch x) (hran : Ran batch x A) (hsizes : Chain m (A.map DenseLayer.affine))
    (hdelta : A ≠ [] → Agrees delta (outRows m (A.map DenseLayer.affine)) batch
      (AffineNet.delta batch t (outRows m (A.map DenseLayer.affine)) (B.map DenseLayer.affine)
        (eval (A.map DenseLayer.affine) x))) :
    (backLoop batch input delta A.reverse).length = A.length ∧
      ∀ A₁ l A₂, A = A₁ ++ l :: A₂ → ∃ l',
        (backLoop batch input delta A.reverse).reverse[A₁.length]? = some l' ∧
          HasGradient batch l' l
            (AffineNet.delta batch t l.outSize ((A₂ ++ B).map DenseLayer.affine)
              (l.affine.map (eval (A₁.map DenseLayer.affine) x)))
            (eval (A₁.map DenseLayer.affine) x) := by
  induction A using List.reverseRecOn generalizing B delta with
  | nil => exact ⟨rfl, fun A₁ l A₂ h => by simp at h⟩
  | append_singleton A l ih =>
    have hδ := hdelta (by simp)
    rw [List.map_append, outRows_append, eval_append] at hδ
    obtain ⟨l', next, hloop, hgrad, hnext⟩ := backLoop_concat hinput hran hsizes hδ
    have hran' := (ran_append.1 hran).1
    rw [List.map_append, chain_append] at hsizes
    obtain ⟨hlen, hrest⟩ := @ih (l :: B) next hran' hsizes.1 fun hne => hsizes.2.1 ▸ hnext hne
    rw [hloop]
    refine ⟨by simp [hlen], fun A₁ k A₂ h => ?_⟩
    rw [List.reverse_cons]
    obtain rfl | ⟨A₂, k', rfl⟩ := A₂.eq_nil_or_concat
    · obtain ⟨rfl, hk⟩ := List.append_inj' h rfl
      obtain rfl := List.singleton_inj.1 hk
      refine ⟨l', ?_, hgrad⟩
      rw [← hlen, ← List.length_reverse, List.getElem?_concat_length]
    · rw [List.concat_eq_append, ← List.cons_append, ← List.append_assoc] at h
      obtain ⟨rfl, hk⟩ := List.append_inj' h rfl
      obtain rfl := List.singleton_inj.1 hk
      obtain ⟨k', hk', hgrad'⟩ := hrest A₁ k A₂ rfl
      refine ⟨k', ?_, ?_⟩
      · rw [List.getElem?_append_left, hk']
        rw [List.length_reverse, hlen]
        simp
      · rwa [List.concat_eq_append, List.append_assoc]

/-- The gradients that `nn_backward` computes. -/
theorem nnBackward_hasGradient {m : ℕ} {pre post : List DenseLayer} (target delta : Mat)
    (hinput : Agrees input m batch x) (hbuilt : ∀ k ∈ pre ++ l :: post, k.Built)
    (hsizes : Chain m ((pre ++ l :: post).map DenseLayer.affine)) :
    ∃ l', (nnBackward batch input target delta (nnForward batch (pre ++ l :: post) input))[pre.length]? =
        some l' ∧
      HasGradient batch l' l
        (AffineNet.delta batch (targetEntries batch target) l.outSize (post.map DenseLayer.affine)
          (l.affine.map (eval (pre.map DenseLayer.affine) x)))
        (eval (pre.map DenseLayer.affine) x) := by
  obtain ⟨hran, haffine⟩ := nnForward_ran hbuilt hsizes hinput
  generalize nnForward batch (pre ++ l :: post) input = F at hran haffine
  rw [← haffine] at hsizes
  -- The layers after the forward pass stand in the same places, with the same maps.
  obtain ⟨F₁, F', rfl, hF₁, hF'⟩ := List.map_eq_append_iff.1 (haffine.trans List.map_append)
  obtain ⟨k, F₂, rfl, hk, hF₂⟩ := List.map_eq_cons_iff.1 hF'
  obtain h | ⟨A, out, h⟩ := (F₁ ++ k :: F₂).eq_nil_or_concat
  · simp at h
  rw [List.concat_eq_append] at h
  rw [h] at hran hsizes
  obtain ⟨-, -, hout, -⟩ := ran_append.1 hran
  rw [nnBackward, h, List.getLast?_concat]
  dsimp only
  have hstart : Agrees ((delta.resize out.outSize batch).fill (out.outSize * batch) fun i =>
      2 * (out.a.data i - target.data i) / (out.outSize * batch : ℕ)) out.outSize batch
      (AffineNet.delta batch (targetEntries batch target) out.outSize []
        (out.affine.map (eval (A.map DenseLayer.affine) x))) := by
    refine .of_fill rfl rfl fun i hi c hc => ?_
    have hget := hout.get_eq i hi c hc
    rw [Mat.get, hout.cols_eq] at hget
    rw [hget]
    rfl
  obtain ⟨-, hspec⟩ := @backLoop_spec batch input x (A ++ [out]) [] m _ (targetEntries batch target) hinput
    hran hsizes fun _ => by rw [List.map_append, outRows_append, eval_append]; exact hstart
  obtain ⟨l', hl', hgrad⟩ := hspec F₁ k F₂ h.symm
  have hlen : F₁.length = pre.length := by simpa using congrArg List.length hF₁
  have hsize : k.outSize = l.outSize := congrArg Layer.out hk
  have hsize' : k.inSize = l.inSize := congrArg Layer.inn hk
  rw [List.append_nil, hF₁, hF₂, hk, hsize] at hgrad
  refine ⟨l', by rw [← hlen, hl'], fun i hi j hj => ?_, fun i hi => ?_⟩
  · exact hgrad.1 i (hsize ▸ hi) j (hsize' ▸ hj)
  · exact hgrad.2 i (hsize ▸ hi)

/-! ## Derivatives -/

/-- Storing a weight changes one entry of the layer. -/
theorem affine_setW (hl : l.Built) {i j : ℕ} (hj : j < l.inSize) (w : ℚ) :
    DenseLayer.affine { l with W := l.W.set i j w } = l.affine.setW i j w := by
  have hcols := hl.cols_W
  refine congrArg (Layer.mk l.outSize l.inSize · l.b.data) (funext fun i' => funext fun k => ?_)
  change (if k < l.inSize then (l.W.set i j w).get i' k else 0) =
    Function.update l.affine.W i (Function.update (l.affine.W i) j w) i' k
  rw [Function.update_apply]
  by_cases hk : k < l.inSize
  · rw [if_pos hk, Mat.set, Mat.get_store (by omega) (by omega), ← affine_W hk]
    by_cases hi : i' = i
    · rw [if_pos hi, Function.update_apply]
      exact if_congr (and_iff_right hi) rfl (by rw [hi])
    · rw [if_neg hi, if_neg fun h => hi h.1]
  · have hzero : ∀ i, l.affine.W i k = 0 := fun i => if_neg hk
    rw [if_neg hk]
    split
    · rw [Function.update_of_ne (by omega), hzero]
    · rw [hzero]

/-- Storing a bias, likewise. -/
theorem affine_setB (hl : l.Built) (i : ℕ) (w : ℚ) :
    DenseLayer.affine { l with b := l.b.set i 0 w } = l.affine.setB i w := by
  have hdata : (l.b.set i 0 w).data = Function.update l.b.data i w := by
    rw [Mat.set, hl.cols_b, Nat.mul_one, Nat.add_zero]
    rfl
  exact congrArg (Layer.mk l.outSize l.inSize l.affine.W ·) hdata

/-- After `nn_forward` and `nn_backward`, the gradients of each layer are the partial derivatives of the
loss. -/
theorem backprop_computes_gradient (batch : ℕ) (input target delta : Mat) (layers : List DenseLayer)
    (hbuilt : ∀ l ∈ layers, l.Built) (hsizes : Chain input.rows (layers.map DenseLayer.affine))
    (hinput : input.cols = batch) (pre post : List DenseLayer) (l : DenseLayer)
    (hlayers : layers = pre ++ l :: post) :
    ∃ l', (nnBackward batch input target delta (nnForward batch layers input))[pre.length]? = some l' ∧
      (∀ i < l.outSize, ∀ j < l.inSize,
        HasDerivAt (fun w => netLoss batch input target (pre ++ { l with W := l.W.set i j w } :: post))
          (l'.dW.get i j) (l.W.get i j)) ∧
      ∀ i < l.outSize,
        HasDerivAt (fun w => netLoss batch input target (pre ++ { l with b := l.b.set i 0 w } :: post))
          (l'.db.get i 0) (l.b.get i 0) := by
  subst hlayers
  have hagrees : Agrees input input.rows batch input.get := ⟨rfl, hinput, fun _ _ _ _ => rfl⟩
  obtain ⟨l', hl', hdW, hdb⟩ := nnBackward_hasGradient target delta hagrees hbuilt hsizes
  have hl := hbuilt l (by simp)
  rw [List.map_append, chain_append] at hsizes
  obtain ⟨hpre, hin, hpost⟩ := hsizes
  -- The loss with another layer of the same sizes.
  have hloss : ∀ k : DenseLayer, k.Built → k.inSize = l.inSize → k.outSize = l.outSize →
      netLoss batch input target (pre ++ k :: post) = loss batch (targetEntries batch target) input.rows
        (pre.map DenseLayer.affine ++ k.affine :: post.map DenseLayer.affine) input.get := by
    intro k hk hkin hkout
    rw [netLoss_eq (m := input.rows) target ?_ ?_ (by simp) hagrees, List.map_append]
    · rfl
    · intro k' hk'
      obtain hk' | hk' := List.mem_append.1 hk'
      · exact hbuilt k' (List.mem_append_left _ hk')
      · obtain rfl | hk' := List.mem_cons.1 hk'
        · exact hk
        · exact hbuilt k' (List.mem_append_right _ (List.mem_cons_of_mem _ hk'))
    · rw [List.map_append, chain_append]
      exact ⟨hpre, hkin.trans hin, (congrArg (Chain · _) hkout).mpr hpost⟩
  refine ⟨l', hl', fun i hi j hj => ?_, fun i hi => ?_⟩
  · have hfun : ∀ w, netLoss batch input target (pre ++ { l with W := l.W.set i j w } :: post) = _ := fun w =>
      hloss { l with W := l.W.set i j w } ⟨hl.1, hl.2, hl.3, hl.4, hl.5⟩ rfl rfl
    rw [hdW i hi j hj, ← affine_W hj, funext hfun]
    simp only [affine_setW hl hj]
    exact hasDerivAt_setW hpost hi input.get hj
  · have hfun : ∀ w, netLoss batch input target (pre ++ { l with b := l.b.set i 0 w } :: post) = _ := fun w =>
      hloss { l with b := l.b.set i 0 w } ⟨hl.1, hl.2, hl.3, hl.4, hl.5⟩ rfl rfl
    have hb : l.b.get i 0 = l.affine.b i := by
      rw [Mat.get, hl.cols_b, Nat.mul_one, Nat.add_zero]
      rfl
    rw [hdb i hi, hb, funext hfun]
    simp only [affine_setB hl]
    exact hasDerivAt_setB hpost hi input.get

/-- A layer as `nn_build` makes it, with the weights `w` row by row. -/
def denseLayer (inSize outSize : ℕ) (w : ℕ → ℚ) : DenseLayer where
  inSize := inSize
  outSize := outSize
  W := ⟨outSize, inSize, w⟩
  b := Mat.alloc outSize 1
  z := Mat.alloc outSize 1
  a := Mat.alloc outSize 1
  dW := Mat.alloc outSize inSize
  db := Mat.alloc outSize 1

/-- Two inputs of two numbers, with a layer of three numbers before one of one number and the target 0: the
second weight of the first layer. -/
theorem backprop_computes_gradient_two_layers :
    let input : Mat := ⟨2, 2, fun p => p⟩
    let first := denseLayer 2 3 fun p => p
    let second := denseLayer 3 1 fun p => p + 1
    ∃ l', (nnBackward 2 input (Mat.alloc 1 2) (Mat.alloc 1 2) (nnForward 2 [first, second] input))[0]? = some l' ∧
      HasDerivAt (fun w => netLoss 2 input (Mat.alloc 1 2) [{ first with W := first.W.set 0 1 w }, second])
        (l'.dW.get 0 1) 1 := by
  intro input first second
  have hbuilt : ∀ l ∈ [first, second], l.Built := by
    intro l hl
    obtain rfl | hl := List.mem_cons.1 hl
    · exact ⟨rfl, rfl, rfl, rfl, rfl⟩
    · rw [List.mem_singleton.1 hl]
      exact ⟨rfl, rfl, rfl, rfl, rfl⟩
  obtain ⟨l', hl', hdW, -⟩ := backprop_computes_gradient 2 input (Mat.alloc 1 2) (Mat.alloc 1 2)
    [first, second] hbuilt ⟨rfl, rfl, trivial⟩ rfl [] [second] first rfl
  have hderiv := hdW 0 (Nat.zero_lt_succ 2) 1 Nat.one_lt_two
  have hweight : first.W.get 0 1 = 1 := by decide +kernel
  rw [hweight] at hderiv
  exact ⟨l', hl', hderiv⟩

end PlantOS.User.Train
