import Mathlib.Tactic.Linarith
import Mathlib.Tactic.Ring

/-!
# Drawing a line

Model of `wm_draw_line`. All values are signed 32-bit integers; an expression that overflows has no result.
What is done with a point, by `wm_putpixel`, is a parameter.

The loop has no counter. Let `a` and `b` be the numbers of steps that are left in the direction of the longer
side `u` and of the shorter side `v`. The error term is then `u - v - u * b + v * a` up to its sign, and it
stays between bounds that force a step in the longer direction in every round and `b = 0` once `a = 0`
(`Major`). The two directions differ only by the sign of the error term.

Reference: `wm_draw_line` in `gui/wm.c`.
-/

namespace PlantOS.Gui

/-- The value of a signed 32-bit expression. -/
def int32 (x : ℤ) : Option ℤ := if -2 ^ 31 ≤ x ∧ x < 2 ^ 31 then some x else none

/-- What the loop does not change. -/
structure LineSides where
  x1 : ℤ
  y1 : ℤ
  dx : ℤ
  dy : ℤ
  sx : ℤ
  sy : ℤ

/-- The rest of a round after the test for the end point: the new `x0`, `y0` and `err`. -/
def lineStep (l : LineSides) (x0 y0 err : ℤ) : Option (ℤ × ℤ × ℤ) := do
  let e2 ← int32 (2 * err)
  let ndy ← int32 (-l.dy)
  let err' ← if ndy < e2 then int32 (err - l.dy) else some err
  let x0 ← if ndy < e2 then int32 (x0 + l.sx) else some x0
  let err' ← if e2 < l.dx then int32 (err' + l.dx) else some err'
  let y0 ← if e2 < l.dx then int32 (y0 + l.sy) else some y0
  some (x0, y0, err')

section

variable {σ : Type} (putpixel : ℤ → ℤ → σ → σ)

/-- At most `n` rounds of the loop. -/
def lineLoop (l : LineSides) : ℕ → ℤ → ℤ → ℤ → σ → Option σ
  | 0, _, _, _, _ => none
  | n + 1, x0, y0, err, s =>
    if x0 = l.x1 ∧ y0 = l.y1 then some (putpixel x0 y0 s)
    else (lineStep l x0 y0 err).bind fun r => lineLoop l n r.1 r.2.1 r.2.2 (putpixel x0 y0 s)

/-- `if (d < 0) d = -d;` -/
def negate32 (d : ℤ) : Option ℤ := if d < 0 then int32 (-d) else some d

/-- `wm_draw_line` with at most `n` rounds. -/
def wmDrawLine (n : ℕ) (x0 y0 x1 y1 : ℤ) (s : σ) : Option σ := do
  let dx ← int32 (x1 - x0)
  let dy ← int32 (y1 - y0)
  let sx := if 0 < dx then 1 else -1
  let sy := if 0 < dy then 1 else -1
  let dx ← negate32 dx
  let dy ← negate32 dy
  let err ← int32 (dx - dy)
  lineLoop putpixel ⟨x1, y1, dx, dy, sx, sy⟩ n x0 y0 err s

end

/-! ## The error term -/

/-- The error term `e` with `a` steps left of the longer side `u` and `b` steps of the shorter side `v`. -/
structure Major (u v a b e : ℤ) : Prop where
  pos : 0 < u
  nonneg : 0 ≤ v
  le : v ≤ u
  left_nonneg : 0 ≤ b
  error : e = u - v - u * b + v * a
  lower : -v < 2 * e
  upper : 2 * e < 3 * u - 2 * v

namespace Major

variable {u v a b e : ℤ}

theorem start (hpos : 0 < u) (hnonneg : 0 ≤ v) (hle : v ≤ u) : Major u v u v (u - v) :=
  ⟨hpos, hnonneg, hle, hnonneg, by ring, by omega, by omega⟩

/-- Both sides end together. -/
theorem eq_zero (h : Major u v 0 b e) : b = 0 := by
  have herror := h.error
  have hlower := h.lower
  by_contra hb
  have hone : 1 ≤ b := by have := h.left_nonneg; omega
  have hmul : u * 1 ≤ u * b := mul_le_mul_of_nonneg_left hone h.pos.le
  have := h.nonneg
  linarith

/-- A step of the shorter side is made only if one is left. -/
theorem one_le (h : Major u v a b e) (ha : 1 ≤ a) (hstep : 2 * e < u) : 1 ≤ b := by
  by_contra hb
  obtain rfl : b = 0 := by have := h.left_nonneg; omega
  have herror := h.error
  have hmul : v * 1 ≤ v * a := mul_le_mul_of_nonneg_left ha h.nonneg
  have := h.pos
  have := h.le
  linarith

theorem both (h : Major u v a b e) (ha : 1 ≤ a) (hstep : 2 * e < u) :
    Major u v (a - 1) (b - 1) (e - v + u) where
  pos := h.pos
  nonneg := h.nonneg
  le := h.le
  left_nonneg := by have := h.one_le ha hstep; omega
  error := by rw [h.error]; ring
  lower := by have := h.lower; have := h.le; have := h.pos; omega
  upper := by omega

theorem one (h : Major u v a b e) (hstep : u ≤ 2 * e) : Major u v (a - 1) b (e - v) where
  pos := h.pos
  nonneg := h.nonneg
  le := h.le
  left_nonneg := h.left_nonneg
  error := by rw [h.error]; ring
  -- If the sides are equal, the upper bound excludes this case.
  lower := by have := h.upper; have := h.le; omega
  upper := by have := h.upper; have := h.nonneg; omega

end Major

/-! ## The points -/

/-- `b` is `a`, or its neighbour in the direction of `c`. -/
def Towards (c a b : ℤ) : Prop := b = a ∨ a < c ∧ b = a + 1 ∨ c < a ∧ b = a - 1

/-- A step from a point to the next one. -/
def LineStep (x1 y1 : ℤ) (p q : ℤ × ℤ) : Prop := Towards x1 p.1 q.1 ∧ Towards y1 p.2 q.2

/-- The loop passes the points `pts` to `wm_putpixel`, in this order. -/
structure Draws (l : LineSides) (x0 y0 err : ℤ) (pts : List (ℤ × ℤ)) : Prop where
  run : ∀ {σ : Type} (putpixel : ℤ → ℤ → σ → σ) (n : ℕ) (s : σ), pts.length ≤ n →
    lineLoop putpixel l n x0 y0 err s = some (pts.foldl (fun s p => putpixel p.1 p.2 s) s)
  head : pts.head? = some (x0, y0)
  last : pts.getLast? = some (l.x1, l.y1)
  chain : pts.IsChain (LineStep l.x1 l.y1)

theorem int32_of_lt {x : ℤ} (h : -2 ^ 31 ≤ x ∧ x < 2 ^ 31) : int32 x = some x := if_pos h

section

variable {l : LineSides} {x0 y0 err : ℤ}

theorem Draws.end (l : LineSides) (err : ℤ) : Draws l l.x1 l.y1 err [(l.x1, l.y1)] where
  run putpixel n s hn := by
    cases n with
    | zero => simp at hn
    | succ n =>
      rw [lineLoop, if_pos ⟨rfl, rfl⟩]
      rfl
  head := rfl
  last := rfl
  chain := .singleton _

theorem Draws.cons {x0' y0' err' : ℤ} {pts : List (ℤ × ℤ)} (h : Draws l x0' y0' err' pts)
    (hne : ¬(x0 = l.x1 ∧ y0 = l.y1)) (hstep : lineStep l x0 y0 err = some (x0', y0', err'))
    (hpoint : LineStep l.x1 l.y1 (x0, y0) (x0', y0')) : Draws l x0 y0 err ((x0, y0) :: pts) where
  run putpixel n s hn := by
    cases n with
    | zero => simp at hn
    | succ n =>
      rw [lineLoop, if_neg hne, hstep, Option.bind_some, h.run putpixel n _ (Nat.le_of_succ_le_succ hn)]
      rfl
  head := rfl
  last := by
    have hlast := h.last
    cases pts with
    | nil => cases hlast
    | cons p pts => exact hlast
  chain := by
    have hhead := h.head
    cases pts with
    | nil => exact .singleton _
    | cons p pts =>
      obtain rfl := Option.some.inj hhead
      exact .cons_cons hpoint h.chain

/-- The bounds under which nothing overflows. -/
structure LineSides.Bounded (l : LineSides) : Prop where
  x1 : -2 ^ 28 < l.x1 ∧ l.x1 < 2 ^ 28
  y1 : -2 ^ 28 < l.y1 ∧ l.y1 < 2 ^ 28
  dx : 0 ≤ l.dx ∧ l.dx < 2 ^ 29
  dy : 0 ≤ l.dy ∧ l.dy < 2 ^ 29
  sx : l.sx = 1 ∨ l.sx = -1
  sy : l.sy = 1 ∨ l.sy = -1

theorem lineStep_eq (hl : l.Bounded) (hx : -2 ^ 30 < x0 ∧ x0 < 2 ^ 30) (hy : -2 ^ 30 < y0 ∧ y0 < 2 ^ 30)
    (herr : -(3 * 2 ^ 29) ≤ 2 * err ∧ 2 * err ≤ 3 * 2 ^ 29) :
    lineStep l x0 y0 err = some (if -l.dy < 2 * err then x0 + l.sx else x0,
      if 2 * err < l.dx then y0 + l.sy else y0,
      (if -l.dy < 2 * err then err - l.dy else err) + if 2 * err < l.dx then l.dx else 0) := by
  have hdx := hl.dx
  have hdy := hl.dy
  have hsx := hl.sx
  have hsy := hl.sy
  rw [lineStep, int32_of_lt (by omega), int32_of_lt (by omega : _ ≤ -l.dy ∧ _)]
  simp only [Option.bind_eq_bind, Option.bind_some]
  rw [int32_of_lt (by omega : _ ≤ err - l.dy ∧ _), int32_of_lt (by omega : _ ≤ x0 + l.sx ∧ _),
    int32_of_lt (by omega : _ ≤ y0 + l.sy ∧ _)]
  by_cases h₁ : -l.dy < 2 * err
  · by_cases h₂ : 2 * err < l.dx
    · simp only [h₁, h₂, if_true, Option.bind_some]
      rw [int32_of_lt (by omega)]
      rfl
    · simp [h₁, h₂]
  · by_cases h₂ : 2 * err < l.dx
    · simp only [h₁, h₂, if_true, if_false, Option.bind_some]
      rw [int32_of_lt (by omega)]
      rfl
    · simp [h₁, h₂]

theorem towards_same (c a : ℤ) : Towards c a a := .inl rfl

theorem towards_step {c s a : ℤ} (hs : s = 1 ∨ s = -1) (ha : 1 ≤ a) :
    Towards c (c - s * a) (c - s * (a - 1)) := by
  obtain rfl | rfl := hs
  · exact .inr (.inl ⟨by omega, by omega⟩)
  · exact .inr (.inr ⟨by omega, by omega⟩)

/-- Where a coordinate is with `a` steps left. -/
theorem coordinate_bounds {c s a d : ℤ} (hs : s = 1 ∨ s = -1) (hc : -2 ^ 28 < c ∧ c < 2 ^ 28)
    (ha : 0 ≤ a ∧ a ≤ d) (hd : d < 2 ^ 29) : -2 ^ 30 < c - s * a ∧ c - s * a < 2 ^ 30 := by
  obtain rfl | rfl := hs <;> omega

theorem coordinate_ne {c s a : ℤ} (hs : s = 1 ∨ s = -1) (ha : 1 ≤ a) : c - s * a ≠ c := by
  obtain rfl | rfl := hs <;> omega

/-- A round with `a` steps to the side and `b` steps up or down left. -/
theorem Draws.step (hl : l.Bounded) {a b err : ℤ} (ha : 0 ≤ a ∧ a ≤ l.dx) (hb : 0 ≤ b ∧ b ≤ l.dy)
    (herr : -(3 * 2 ^ 29) ≤ 2 * err ∧ 2 * err ≤ 3 * 2 ^ 29) (hx : -l.dy < 2 * err → 1 ≤ a)
    (hy : 2 * err < l.dx → 1 ≤ b) (hleft : 1 ≤ a ∨ 1 ≤ b) {pts : List (ℤ × ℤ)}
    (h : Draws l (l.x1 - l.sx * if -l.dy < 2 * err then a - 1 else a)
      (l.y1 - l.sy * if 2 * err < l.dx then b - 1 else b)
      ((if -l.dy < 2 * err then err - l.dy else err) + if 2 * err < l.dx then l.dx else 0) pts) :
    Draws l (l.x1 - l.sx * a) (l.y1 - l.sy * b) err ((l.x1 - l.sx * a, l.y1 - l.sy * b) :: pts) := by
  have hmove : ∀ c s a : ℤ, c - s * (a - 1) = c - s * a + s := fun c s a => by ring
  refine h.cons (fun heq => ?_) ?_ ⟨?_, ?_⟩
  · obtain hleft | hleft := hleft
    · exact coordinate_ne hl.sx hleft heq.1
    · exact coordinate_ne hl.sy hleft heq.2
  · rw [lineStep_eq hl (coordinate_bounds hl.sx hl.x1 ha hl.dx.2) (coordinate_bounds hl.sy hl.y1 hb hl.dy.2) herr]
    simp only [apply_ite (l.x1 - l.sx * ·), apply_ite (l.y1 - l.sy * ·), hmove]
  · dsimp only
    split
    · exact towards_step hl.sx (hx ‹_›)
    · exact towards_same _ _
  · dsimp only
    split
    · exact towards_step hl.sy (hy ‹_›)
    · exact towards_same _ _

/-- Lines that are at least as wide as high. -/
theorem draws_wide (hl : l.Bounded) (a : ℕ) {b err : ℤ} (h : Major l.dx l.dy a b err) (ha : a ≤ l.dx)
    (hb : b ≤ l.dy) :
    ∃ pts, pts.length = a + 1 ∧ Draws l (l.x1 - l.sx * a) (l.y1 - l.sy * b) err pts := by
  induction a generalizing b err with
  | zero =>
    obtain rfl := h.eq_zero
    refine ⟨[(l.x1, l.y1)], rfl, ?_⟩
    simpa using Draws.end l err
  | succ a ih =>
    have hpos : (1 : ℤ) ≤ (a + 1 : ℕ) := by omega
    have hleft : ((a + 1 : ℕ) : ℤ) - 1 = a := by omega
    have hstep := @Draws.step l hl (a + 1 : ℕ) b err ⟨by omega, ha⟩ ⟨h.left_nonneg, hb⟩
      (by have := h.lower; have := h.upper; have := hl.dx; have := hl.dy; omega) (fun _ => hpos)
      (h.one_le hpos) (.inl hpos)
    rw [if_pos h.lower, if_pos h.lower, hleft] at hstep
    by_cases hboth : 2 * err < l.dx
    · have hmajor := h.both hpos hboth
      rw [hleft] at hmajor
      obtain ⟨pts, hlen, hdraws⟩ := ih hmajor (by omega) (by omega)
      rw [if_pos hboth, if_pos hboth] at hstep
      exact ⟨_, congrArg (· + 1) hlen, hstep hdraws⟩
    · have hmajor := h.one (by omega)
      rw [hleft] at hmajor
      obtain ⟨pts, hlen, hdraws⟩ := ih hmajor (by omega) hb
      rw [if_neg hboth, if_neg hboth, add_zero] at hstep
      exact ⟨_, congrArg (· + 1) hlen, hstep hdraws⟩

/-- Lines that are higher than wide: the error term has the other sign. -/
theorem draws_high (hl : l.Bounded) (a : ℕ) (err : ℤ) {b : ℤ} (h : Major l.dy l.dx a b (-err))
    (ha : a ≤ l.dy) (hb : b ≤ l.dx) :
    ∃ pts, pts.length = a + 1 ∧ Draws l (l.x1 - l.sx * b) (l.y1 - l.sy * a) err pts := by
  induction a generalizing b err with
  | zero =>
    obtain rfl := h.eq_zero
    refine ⟨[(l.x1, l.y1)], rfl, ?_⟩
    simpa using Draws.end l err
  | succ a ih =>
    have hpos : (1 : ℤ) ≤ (a + 1 : ℕ) := by omega
    have hleft : ((a + 1 : ℕ) : ℤ) - 1 = a := by omega
    have hlower : 2 * err < l.dx := by have := h.lower; omega
    have hstep := @Draws.step l hl b (a + 1 : ℕ) err ⟨h.left_nonneg, hb⟩ ⟨by omega, ha⟩
      (by have := h.lower; have := h.upper; have := hl.dx; have := hl.dy; omega)
      (fun hx => h.one_le hpos (by omega)) (fun _ => hpos) (.inr hpos)
    rw [if_pos hlower, if_pos hlower, hleft] at hstep
    by_cases hboth : -l.dy < 2 * err
    · have hmajor := h.both hpos (by omega)
      rw [hleft, show -err - l.dx + l.dy = -(err - l.dy + l.dx) by ring] at hmajor
      obtain ⟨pts, hlen, hdraws⟩ := ih _ hmajor (by omega) (by omega)
      rw [if_pos hboth, if_pos hboth] at hstep
      exact ⟨_, congrArg (· + 1) hlen, hstep hdraws⟩
    · have hmajor := h.one (by omega)
      rw [hleft, show -err - l.dx = -(err + l.dx) by ring] at hmajor
      obtain ⟨pts, hlen, hdraws⟩ := ih _ hmajor (by omega) hb
      rw [if_neg hboth, if_neg hboth] at hstep
      exact ⟨_, congrArg (· + 1) hlen, hstep hdraws⟩

end

/-- The sides that `wm_draw_line` computes. -/
def lineSides (x0 y0 x1 y1 : ℤ) : LineSides :=
  ⟨x1, y1, |x1 - x0|, |y1 - y0|, if 0 < x1 - x0 then 1 else -1, if 0 < y1 - y0 then 1 else -1⟩

/-- The distances do not overflow when they are negated. -/
theorem negate32_eq {d : ℤ} (hd : -2 ^ 29 < d ∧ d < 2 ^ 29) : negate32 d = some |d| := by
  rw [negate32]
  split
  · rename_i hneg
    rw [int32_of_lt (by omega), abs_of_neg hneg]
  · rename_i hneg
    rw [abs_of_nonneg (by omega)]

/-- The start of a line, by the number of steps that are left. -/
theorem start_eq (x0 x1 : ℤ) : x1 - (if 0 < x1 - x0 then 1 else -1) * |x1 - x0| = x0 := by
  split
  · rename_i hpos
    rw [abs_of_pos hpos]
    ring
  · rename_i hpos
    rw [abs_of_nonpos (by omega)]
    ring

/-- A whole line. -/
theorem exists_draws {l : LineSides} (hl : l.Bounded) :
    ∃ pts, (pts.length : ℤ) = max l.dx l.dy + 1 ∧
      Draws l (l.x1 - l.sx * l.dx) (l.y1 - l.sy * l.dy) (l.dx - l.dy) pts := by
  have hx : (l.dx.toNat : ℤ) = l.dx := Int.toNat_of_nonneg hl.dx.1
  have hy : (l.dy.toNat : ℤ) = l.dy := Int.toNat_of_nonneg hl.dy.1
  obtain hle | hlt := le_or_gt l.dy l.dx
  · obtain hpos | hzero : 0 < l.dx ∨ l.dx = 0 := by have := hl.dx; omega
    · obtain ⟨pts, hlen, hdraws⟩ :=
        draws_wide hl l.dx.toNat (by rw [hx]; exact Major.start hpos hl.dy.1 hle) hx.le le_rfl
      rw [hx] at hdraws
      exact ⟨pts, by omega, hdraws⟩
    · have hzero' : l.dy = 0 := by have := hl.dy; omega
      refine ⟨[(l.x1, l.y1)], by simp [hzero, hzero'], ?_⟩
      simpa [hzero, hzero'] using Draws.end l 0
  · have herr : -(l.dx - l.dy) = l.dy - l.dx := by ring
    obtain ⟨pts, hlen, hdraws⟩ := draws_high hl l.dy.toNat (l.dx - l.dy)
      (by rw [hy, herr]; exact Major.start (by have := hl.dx; omega) hl.dx.1 hlt.le) hy.le le_rfl
    rw [hy] at hdraws
    exact ⟨pts, by omega, hdraws⟩

/-- Every line is drawn from its first to its last point, one step after the other, without overflow. -/
theorem draw_line_reaches_end (x0 y0 x1 y1 : ℤ) (hx0 : |x0| < 2 ^ 28) (hy0 : |y0| < 2 ^ 28)
    (hx1 : |x1| < 2 ^ 28) (hy1 : |y1| < 2 ^ 28) :
    ∃ pts : List (ℤ × ℤ),
      (∀ (σ : Type) (putpixel : ℤ → ℤ → σ → σ) (n : ℕ) (s : σ), pts.length ≤ n →
        wmDrawLine putpixel n x0 y0 x1 y1 s = some (pts.foldl (fun s p => putpixel p.1 p.2 s) s)) ∧
      (pts.length : ℤ) = max |x1 - x0| |y1 - y0| + 1 ∧
      pts.head? = some (x0, y0) ∧ pts.getLast? = some (x1, y1) ∧ pts.IsChain (LineStep x1 y1) := by
  rw [abs_lt] at hx0 hy0 hx1 hy1
  have hdx : -2 ^ 29 < x1 - x0 ∧ x1 - x0 < 2 ^ 29 := by omega
  have hdy : -2 ^ 29 < y1 - y0 ∧ y1 - y0 < 2 ^ 29 := by omega
  have hadx := abs_lt.2 hdx
  have hady := abs_lt.2 hdy
  have hl : (lineSides x0 y0 x1 y1).Bounded :=
    ⟨hx1, hy1, ⟨abs_nonneg _, hadx⟩, ⟨abs_nonneg _, hady⟩, by rw [lineSides]; dsimp only; split <;> simp,
      by rw [lineSides]; dsimp only; split <;> simp⟩
  obtain ⟨pts, hlen, hdraws⟩ := exists_draws hl
  simp only [lineSides, start_eq] at hlen hdraws
  refine ⟨pts, fun σ putpixel n s hn => ?_, hlen, hdraws.head, hdraws.last, hdraws.chain⟩
  rw [wmDrawLine, int32_of_lt (by omega), int32_of_lt (by omega : _ ≤ y1 - y0 ∧ _)]
  simp only [Option.bind_eq_bind, Option.bind_some, negate32_eq hdx, negate32_eq hdy]
  rw [int32_of_lt (by have := abs_nonneg (x1 - x0); have := abs_nonneg (y1 - y0); omega)]
  exact hdraws.run putpixel n s hn

/-- The line from (0, 0) to (2, 1) has three points. -/
theorem draw_line_reaches_end_two :
    ∃ pts : List (ℤ × ℤ), (pts.length : ℤ) = max |2 - 0| |1 - 0| + 1 ∧ pts.head? = some (0, 0) ∧
      pts.getLast? = some (2, 1) := by
  obtain ⟨pts, -, hlen, hhead, hlast, -⟩ :=
    draw_line_reaches_end 0 0 2 1 (by decide) (by decide) (by decide) (by decide)
  exact ⟨pts, hlen, hhead, hlast⟩

end PlantOS.Gui
