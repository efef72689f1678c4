import Mathlib.Algebra.Order.Floor.Ring
import Mathlib.Tactic

/-!
# Which pixels a triangle covers (`modules/GPU/fgpu_raster.c`)

`raster_triangle` orients a triangle so that its area is positive, walks the pixels of its
bounding box inside the clip rectangle row by row, and steps the three edge functions from pixel to
pixel. A pixel on an edge is covered if the edge owns it: of the two directions of an edge exactly
one owns, so two triangles on opposite sides of a shared edge split its pixels between them.
Numbers are those of an ordered field: nothing is rounded.
-/

namespace MinimalOS.Gpu

structure Point (K : Type) where
  x : K
  y : K

/-- Viewport, target and band, and the culling bits of the state. -/
structure View where
  vpX : ℤ
  vpY : ℤ
  vpW : ℤ
  vpH : ℤ
  width : ℤ
  height : ℤ
  bandY0 : ℤ
  bandY1 : ℤ
  cullBack : Bool
  cullFront : Bool

def View.clipX0 (v : View) : ℤ := max 0 v.vpX
def View.clipY0 (v : View) : ℤ := max (max 0 v.vpY) v.bandY0
def View.clipX1 (v : View) : ℤ := min (v.vpX + v.vpW) v.width
def View.clipY1 (v : View) : ℤ := min (min (v.vpY + v.vpH) v.height) v.bandY1

def View.Shows (v : View) (px : ℤ × ℤ) : Prop :=
  (v.clipX0 ≤ px.1 ∧ px.1 < v.clipX1) ∧ v.clipY0 ≤ px.2 ∧ px.2 < v.clipY1

variable {K : Type} [Field K] [LinearOrder K]

def edge (a b p : Point K) : K := (b.x - a.x) * (p.y - a.y) - (b.y - a.y) * (p.x - a.x)

/-- Pixels exactly on an edge belong to top or left edges. -/
def edgeOwns (dx dy : K) : Bool := dy < 0 ∨ dy = 0 ∧ 0 < dx

def centre (px : ℤ × ℤ) : Point K := ⟨px.1 + 1 / 2, px.2 + 1 / 2⟩

def edgeKeeps (own : Bool) (w : K) : Bool := ¬ w < 0 ∧ ¬ (w = 0 ∧ ¬ own)

/-- The inner loop: `n` pixels from `x` on, the edge functions `w` stepped by `edx`. -/
def rasterRow (own : Fin 3 → Bool) (edx : Fin 3 → K) : ℕ → ℤ → (Fin 3 → K) → List ℤ
  | 0, _, _ => []
  | n + 1, x, w =>
    if ∀ i, edgeKeeps (own i) (w i) then x :: rasterRow own edx n (x + 1) (w + edx)
    else rasterRow own edx n (x + 1) (w + edx)

section Loops

variable [FloorRing K]

/-- The loops over a triangle of positive area. Edge `i` goes from corner `i + 1` to `i + 2`. -/
def rasterOriented (v : View) (t : Fin 3 → Point K) : List (ℤ × ℤ) :=
  let fx0 := ⌊min (t 0).x (min (t 1).x (t 2).x)⌋
  let fx1 := ⌈max (t 0).x (max (t 1).x (t 2).x)⌉
  let fy0 := ⌊min (t 0).y (min (t 1).y (t 2).y)⌋
  let fy1 := ⌈max (t 0).y (max (t 1).y (t 2).y)⌉
  if fx1 < v.clipX0 ∨ fy1 < v.clipY0 ∨ v.clipX1 < fx0 ∨ v.clipY1 < fy0 then []
  else
    let x0 := max v.clipX0 fx0
    let y0 := max v.clipY0 fy0
    let own := fun i => edgeOwns ((t (i + 2)).x - (t (i + 1)).x) ((t (i + 2)).y - (t (i + 1)).y)
    let edx := fun i => -((t (i + 2)).y - (t (i + 1)).y)
    (List.range (min v.clipY1 fy1 - y0).toNat).flatMap fun (k : ℕ) =>
      (rasterRow own edx (min v.clipX1 fx1 - x0).toNat x0 fun i =>
        edge (t (i + 1)) (t (i + 2)) (centre (x0, y0 + k))).map fun x => (x, y0 + k)

/-- The pixels `raster_triangle` covers, in order. -/
def rasterTriangle (v : View) (t : Fin 3 → Point K) : List (ℤ × ℤ) :=
  let area := edge (t 0) (t 1) (t 2)
  if area = 0 then []
  else if v.cullBack ∧ ¬ area < 0 then []
  else if v.cullFront ∧ area < 0 then []
  else if area < 0 then rasterOriented v (t ∘ Equiv.swap 1 2)
  else rasterOriented v t

end Loops

/-! ## Edges -/

/-- `p` is on the inner side of the edge, or on it and owned. -/
def Keeps (a b p : Point K) : Prop := edgeKeeps (edgeOwns (b.x - a.x) (b.y - a.y)) (edge a b p)

variable [IsStrictOrderedRing K]

variable {p a b c : Point K} {t : Fin 3 → Point K}

/-- The two directions of an edge split the plane between them: off the edge by the sign of the
edge function, on it because exactly one of them owns. -/
theorem keeps_rev (h : edge a b c ≠ 0) : Keeps b a p ↔ ¬ Keeps a b p := by
  have hne : ¬ (b.x - a.x = 0 ∧ b.y - a.y = 0) := fun ⟨hx, hy⟩ => h (by rw [edge, hx, hy]; ring)
  have hedge : edge b a p = -edge a b p := by
    unfold edge
    ring
  unfold Keeps edgeKeeps edgeOwns
  rw [hedge, ← neg_sub b.x a.x, ← neg_sub b.y a.y]
  generalize b.x - a.x = dx at hne
  generalize b.y - a.y = dy at hne
  generalize edge a b p = w
  rcases lt_trichotomy w 0 with hw | rfl | hw
  · simp [hw, hw.le, hw.ne]
  · rcases lt_trichotomy dy 0 with hy | rfl | hy
    · simp [hy, hy.le, hy.ne]
    · rcases lt_trichotomy dx 0 with hx | rfl | hx
      · simp [hx, hx.le]
      · simp at hne
      · simp [hx, hx.le]
    · simp [hy, hy.le, hy.ne']
  · simp [hw, hw.le, hw.ne']

def Interior (t : Fin 3 → Point K) (p : Point K) : Prop :=
  (∀ i, 0 < edge (t (i + 1)) (t (i + 2)) p) ∨ ∀ i, edge (t (i + 1)) (t (i + 2)) p < 0

/-- Between the end points of an edge. -/
def OnEdge (a b p : Point K) : Prop :=
  ∃ s : K, 0 < s ∧ s < 1 ∧ p.x = a.x + s * (b.x - a.x) ∧ p.y = a.y + s * (b.y - a.y)

omit [IsStrictOrderedRing K] in
theorem keeps_of_pos (h : 0 < edge a b p) : Keeps a b p := by
  unfold Keeps edgeKeeps
  simp [h.not_gt, h.ne']

theorem mean_between {w0 w1 w2 a b c m : K} (h0 : 0 ≤ w0) (h1 : 0 ≤ w1) (h2 : 0 ≤ w2)
    (hpos : 0 < w0 + w1 + w2) (h : (w0 + w1 + w2) * m = w0 * a + w1 * b + w2 * c) :
    min a (min b c) ≤ m ∧ m ≤ max a (max b c) := by
  constructor <;> refine le_of_mul_le_mul_left ?_ hpos <;> rw [h, add_mul, add_mul]
  · gcongr <;> simp
  · gcongr <;> simp

theorem keeps_box (harea : 0 < edge (t 0) (t 1) (t 2)) (h : ∀ i, Keeps (t (i + 1)) (t (i + 2)) p) :
    (min (t 0).x (min (t 1).x (t 2).x) ≤ p.x ∧ p.x ≤ max (t 0).x (max (t 1).x (t 2).x)) ∧
      min (t 0).y (min (t 1).y (t 2).y) ≤ p.y ∧ p.y ≤ max (t 0).y (max (t 1).y (t 2).y) := by
  have hw : ∀ i, 0 ≤ edge (t (i + 1)) (t (i + 2)) p := fun i => by
    have := h i
    exact not_lt.mp (of_decide_eq_true this).1
  have hsum : edge (t 1) (t 2) p + edge (t 2) (t 0) p + edge (t 0) (t 1) p =
      edge (t 0) (t 1) (t 2) := by
    unfold edge
    ring
  constructor <;> refine mean_between (hw 0) (hw 1) (hw 2) (hsum.symm ▸ harea) ?_ <;>
    show (edge (t 1) (t 2) p + edge (t 2) (t 0) p + edge (t 0) (t 1) p) * _ =
      edge (t 1) (t 2) p * _ + edge (t 2) (t 0) p * _ + edge (t 0) (t 1) p * _
  all_goals
    unfold edge
    ring

/-! ## Triangles in any orientation -/

def area (t : Fin 3 → Point K) : K := edge (t 0) (t 1) (t 2)

/-- The point is kept by the edges of the triangle, taken in the direction of positive area. -/
def Covers (t : Fin 3 → Point K) (p : Point K) : Prop :=
  0 < area t ∧ (∀ i, Keeps (t (i + 1)) (t (i + 2)) p) ∨
    area t < 0 ∧ ∀ i, Keeps (t (i + 2)) (t (i + 1)) p

theorem forall_corners {P : Fin 3 → Prop} : (∀ i, P i) ↔ P 0 ∧ P 1 ∧ P 2 :=
  ⟨fun h => ⟨h 0, h 1, h 2⟩, fun h i => by fin_cases i; exacts [h.1, h.2.1, h.2.2]⟩

theorem covers_perm (σ : Equiv.Perm (Fin 3)) : Covers (t ∘ σ) p ↔ Covers t p := by
  have hσ : ∀ σ : Equiv.Perm (Fin 3), (σ 0, σ 1, σ 2) ∈
      [((0 : Fin 3), (1 : Fin 3), (2 : Fin 3)), (1, 2, 0), (2, 0, 1), (0, 2, 1), (2, 1, 0),
        (1, 0, 2)] := by decide
  have hrot : edge (t 1) (t 2) (t 0) = area t ∧ edge (t 2) (t 0) (t 1) = area t := by
    unfold area edge
    constructor <;> ring
  have hrev : edge (t 0) (t 2) (t 1) = -area t ∧ edge (t 2) (t 1) (t 0) = -area t ∧
      edge (t 1) (t 0) (t 2) = -area t := by
    unfold area edge
    refine ⟨?_, ?_, ?_⟩ <;> ring
  have hlist := hσ σ
  simp only [List.mem_cons, Prod.mk.injEq, List.not_mem_nil, or_false] at hlist
  unfold Covers
  rw [forall_corners, forall_corners, forall_corners, forall_corners]
  show (0 < edge (t (σ 0)) (t (σ 1)) (t (σ 2)) ∧ Keeps (t (σ 1)) (t (σ 2)) p ∧
      Keeps (t (σ 2)) (t (σ 0)) p ∧ Keeps (t (σ 0)) (t (σ 1)) p ∨
    edge (t (σ 0)) (t (σ 1)) (t (σ 2)) < 0 ∧ Keeps (t (σ 2)) (t (σ 1)) p ∧
      Keeps (t (σ 0)) (t (σ 2)) p ∧ Keeps (t (σ 1)) (t (σ 0)) p) ↔
    (0 < area t ∧ Keeps (t 1) (t 2) p ∧ Keeps (t 2) (t 0) p ∧ Keeps (t 0) (t 1) p ∨
      area t < 0 ∧ Keeps (t 2) (t 1) p ∧ Keeps (t 0) (t 2) p ∧ Keeps (t 1) (t 0) p)
  rcases hlist with h | h | h | h | h | h <;> rw [h.1, h.2.1, h.2.2]
  · exact .rfl
  · rw [hrot.1]
    tauto
  · rw [hrot.2]
    tauto
  · rw [hrev.1, neg_pos, neg_lt_zero]
    tauto
  · rw [hrev.2.1, neg_pos, neg_lt_zero]
    tauto
  · rw [hrev.2.2, neg_pos, neg_lt_zero]
    tauto

theorem covers_interior (h : Interior t p) : Covers t p := by
  have hsum : edge (t 1) (t 2) p + edge (t 2) (t 0) p + edge (t 0) (t 1) p = area t := by
    unfold area edge
    ring
  have hrev : ∀ i, edge (t (i + 2)) (t (i + 1)) p = -edge (t (i + 1)) (t (i + 2)) p := fun i => by
    unfold edge
    ring
  rcases h with h | h <;> have h0 := h 0 <;> have h1 := h 1 <;> have h2 := h 2
  · exact .inl ⟨hsum ▸ add_pos (add_pos h0 h1) h2, fun i => keeps_of_pos (h i)⟩
  · exact .inr ⟨hsum ▸ add_neg (add_neg h0 h1) h2, fun i =>
      keeps_of_pos (by rw [hrev]; exact neg_pos.mpr (h i))⟩

omit [IsStrictOrderedRing K] in
theorem Covers.keeps (h : Covers ![a, b, c] p) :
    (0 < edge a b c → Keeps a b p) ∧ (edge a b c < 0 → Keeps b a p) :=
  ⟨fun hpos => (h.resolve_right fun hn => hpos.not_gt hn.1).2 2,
    fun hneg => (h.resolve_left fun hn => hneg.not_gt hn.1).2 2⟩

theorem covers_onEdge (hp : OnEdge a b p) :
    (0 < edge a b c → (Covers ![a, b, c] p ↔ Keeps a b p)) ∧
      (edge a b c < 0 → (Covers ![a, b, c] p ↔ Keeps b a p)) := by
  obtain ⟨s, hs0, hs1, hx, hy⟩ := hp
  have hbc : edge b c p = (1 - s) * edge a b c ∧ edge c b p = (1 - s) * -edge a b c := by
    unfold edge
    rw [hx, hy]
    constructor <;> ring
  have hca : edge c a p = s * edge a b c ∧ edge a c p = s * -edge a b c := by
    unfold edge
    rw [hx, hy]
    constructor <;> ring
  have hs1 : 0 < 1 - s := sub_pos.mpr hs1
  refine ⟨fun h => ?_, fun h => ?_⟩
  · have h1 : Keeps b c p := keeps_of_pos (hbc.1 ▸ mul_pos hs1 h)
    have h2 : Keeps c a p := keeps_of_pos (hca.1 ▸ mul_pos hs0 h)
    exact ⟨fun hc => hc.keeps.1 h, fun hk => .inl ⟨h, forall_corners.mpr ⟨h1, h2, hk⟩⟩⟩
  · have h1 : Keeps c b p := keeps_of_pos (hbc.2 ▸ mul_pos hs1 (neg_pos.mpr h))
    have h2 : Keeps a c p := keeps_of_pos (hca.2 ▸ mul_pos hs0 (neg_pos.mpr h))
    exact ⟨fun hc => hc.keeps.2 h, fun hk => .inr ⟨h, forall_corners.mpr ⟨h1, h2, hk⟩⟩⟩

/-! ## The loops -/

theorem mem_rasterRow {own : Fin 3 → Bool} {edx : Fin 3 → K} {n : ℕ} {x0 x : ℤ} {w : Fin 3 → K} :
    x ∈ rasterRow own edx n x0 w ↔
      ∃ k : ℕ, k < n ∧ x = x0 + k ∧ ∀ i, edgeKeeps (own i) (w i + k * edx i) := by
  induction n generalizing x0 w with
  | zero => simp [rasterRow]
  | succ n ih =>
    have hstep : ∀ k : ℕ, (k < n ∧ x = x0 + 1 + k ∧
        ∀ i, edgeKeeps (own i) ((w + edx) i + k * edx i)) ↔
        (k + 1 < n + 1 ∧ x = x0 + (k + 1 : ℕ) ∧
          ∀ i, edgeKeeps (own i) (w i + (k + 1 : ℕ) * edx i)) := fun k => by
      have hw : ∀ i, (w + edx) i + k * edx i = w i + (k + 1 : ℕ) * edx i := fun i => by
        rw [Pi.add_apply]
        push_cast
        ring
      rw [Nat.add_lt_add_iff_right, Nat.cast_succ, add_assoc, add_comm 1 (k : ℤ)]
      simp only [hw]
    rw [rasterRow]
    constructor
    · intro h
      have hcases : (x = x0 ∧ ∀ i, edgeKeeps (own i) (w i)) ∨
          x ∈ rasterRow own edx n (x0 + 1) (w + edx) := by
        split_ifs at h with hw
        · exact (List.mem_cons.mp h).imp_left fun h => ⟨h, hw⟩
        · exact .inr h
      obtain ⟨rfl, hw⟩ | h := hcases
      · exact ⟨0, n.succ_pos, by simp, by simpa using hw⟩
      · obtain ⟨k, hk⟩ := ih.mp h
        exact ⟨k + 1, (hstep k).mp hk⟩
    · rintro ⟨_ | k, hk⟩
      · rw [if_pos (by simpa using hk.2.2), hk.2.1]
        simp
      · have := ih.mpr ⟨k, (hstep k).mpr hk⟩
        split_ifs
        · exact List.mem_cons_of_mem _ this
        · exact this

variable [FloorRing K]

variable {v : View} {px : ℤ × ℤ}

theorem mem_rasterOriented (harea : 0 < edge (t 0) (t 1) (t 2)) : px ∈ rasterOriented v t ↔
      v.Shows px ∧ ∀ i, Keeps (t (i + 1)) (t (i + 2)) (centre px) := by
  have hstep : ∀ (a b : Point K) (x0 y : ℤ) (j : ℕ), edge a b (centre (x0, y)) +
      j * -(b.y - a.y) = edge a b (centre (x0 + j, y)) := fun a b x0 y j => by
    unfold edge centre
    push_cast
    ring
  have hcell : ∀ {lo hi : K} {z : ℤ}, lo ≤ z + 1 / 2 ∧ (z + 1 / 2 : K) ≤ hi →
      ⌊lo⌋ ≤ z ∧ z < ⌈hi⌉ := fun {lo hi z} h => by
    refine ⟨Int.lt_add_one_iff.mp (Int.floor_lt.mpr ?_), Int.lt_ceil.mpr ?_⟩
    · push_cast
      linarith [h.1]
    · linarith [h.2]
  have hbox := fun h => (keeps_box (p := centre px) harea h).imp hcell hcell
  unfold rasterOriented
  dsimp only at ⊢
  generalize ⌊min (t 0).x _⌋ = fx0, ⌈max (t 0).x _⌉ = fx1, ⌊min (t 0).y _⌋ = fy0,
    ⌈max (t 0).y _⌉ = fy1 at hbox
  unfold View.Shows
  constructor
  · intro h
    split_ifs at h with hout
    · simp at h
    obtain ⟨k, hk, h⟩ := List.mem_flatMap.mp h
    obtain ⟨x, hx, rfl⟩ := List.mem_map.mp h
    obtain ⟨j, hj, rfl, hkeeps⟩ := mem_rasterRow.mp hx
    rw [List.mem_range] at hk
    refine ⟨by dsimp only; omega, fun i => ?_⟩
    rw [Keeps, ← hstep]
    exact hkeeps i
  · rintro ⟨hshows, hkeeps⟩
    have := hbox hkeeps
    obtain ⟨j, hj⟩ := Int.eq_ofNat_of_zero_le (show 0 ≤ px.1 - max v.clipX0 fx0 by omega)
    obtain ⟨k, hk⟩ := Int.eq_ofNat_of_zero_le (show 0 ≤ px.2 - max v.clipY0 fy0 by omega)
    obtain ⟨x, y⟩ := px
    obtain rfl : x = max v.clipX0 fx0 + j := by dsimp only at hj; omega
    obtain rfl : y = max v.clipY0 fy0 + k := by dsimp only at hk; omega
    rw [if_neg (by omega)]
    refine List.mem_flatMap.mpr ⟨k, List.mem_range.mpr (by omega), List.mem_map.mpr
      ⟨_, mem_rasterRow.mpr ⟨j, by omega, rfl, fun i => ?_⟩, rfl⟩⟩
    rw [hstep]
    exact hkeeps i

/-- The triangle is not culled. -/
def Drawn (v : View) (t : Fin 3 → Point K) : Prop :=
  ¬ (v.cullBack ∧ ¬ area t < 0) ∧ ¬ (v.cullFront ∧ area t < 0)

theorem mem_rasterTriangle (h : Drawn v t) :
    px ∈ rasterTriangle v t ↔ v.Shows px ∧ Covers t (centre px) := by
  have hswap : area (t ∘ Equiv.swap 1 2) = -area t := by
    show edge (t 0) (t 2) (t 1) = -edge (t 0) (t 1) (t 2)
    unfold edge
    ring
  have hedges : (∀ i, Keeps ((t ∘ Equiv.swap 1 2) (i + 1)) ((t ∘ Equiv.swap 1 2) (i + 2))
      (centre px)) ↔ ∀ i, Keeps (t (i + 2)) (t (i + 1)) (centre px) := by
    rw [forall_corners, forall_corners]
    exact and_congr_right' and_comm
  unfold rasterTriangle Covers
  dsimp only
  rw [show edge (t 0) (t 1) (t 2) = area t from rfl, if_neg h.1, if_neg h.2]
  rcases lt_trichotomy (area t) 0 with hneg | hzero | hpos
  · rw [if_neg hneg.ne, if_pos hneg, mem_rasterOriented (by rw [← area]; linarith), hedges]
    simp [hneg, hneg.le]
  · simp [hzero]
  · rw [if_neg hpos.ne', if_neg hpos.le.not_gt, mem_rasterOriented hpos]
    simp [hpos, hpos.le]

/-- **A shared edge.** Two triangles on opposite sides of an edge, their corners given in any
order, have no pixel in common, and a pixel strictly inside one of them or on the edge between its
ends is covered by exactly one. -/
theorem shared_edge_once (v : View) (p q r r' : Point K) (σ σ' : Equiv.Perm (Fin 3))
    (hopp : edge p q r * edge p q r' < 0) (hd : Drawn v (![p, q, r] ∘ σ))
    (hd' : Drawn v (![p, q, r'] ∘ σ')) (px : ℤ × ℤ) :
    ¬ (px ∈ rasterTriangle v (![p, q, r] ∘ σ) ∧ px ∈ rasterTriangle v (![p, q, r'] ∘ σ')) ∧
      (v.Shows px → Interior ![p, q, r] (centre px) ∨ Interior ![p, q, r'] (centre px) ∨
          OnEdge p q (centre px) →
        (px ∈ rasterTriangle v (![p, q, r] ∘ σ) ↔ px ∉ rasterTriangle v (![p, q, r'] ∘ σ'))) := by
  rw [mem_rasterTriangle hd, mem_rasterTriangle hd', covers_perm, covers_perm]
  have hrev : Keeps q p (centre px : Point K) ↔ ¬ Keeps p q (centre px) :=
    keeps_rev (left_ne_zero_of_mul hopp.ne)
  have hone : ¬ (Covers ![p, q, r] (centre px : Point K) ∧ Covers ![p, q, r'] (centre px)) ∧
      (OnEdge p q (centre px : Point K) →
        (Covers ![p, q, r] (centre px : Point K) ↔ ¬ Covers ![p, q, r'] (centre px))) := by
    rcases mul_neg_iff.mp hopp with ⟨h, h'⟩ | ⟨h, h'⟩
    · refine ⟨fun hc => hrev.mp (hc.2.keeps.2 h') (hc.1.keeps.1 h), fun he => ?_⟩
      rw [(covers_onEdge he).1 h, (covers_onEdge he).2 h', hrev, not_not]
    · refine ⟨fun hc => hrev.mp (hc.1.keeps.2 h) (hc.2.keeps.1 h'), fun he => ?_⟩
      rw [(covers_onEdge he).2 h, (covers_onEdge he).1 h', hrev]
  refine ⟨fun h => hone.1 ⟨h.1.2, h.2.2⟩, fun hshows hin => ?_⟩
  simp only [hshows, true_and]
  rcases hin with hin | hin | hin
  · exact iff_of_true (covers_interior hin) fun hc => hone.1 ⟨covers_interior hin, hc⟩
  · exact iff_of_false (fun hc => hone.1 ⟨hc, covers_interior hin⟩) (not_not.mpr (covers_interior hin))
  · exact hone.2 hin

def upperHalf : Fin 3 → Point ℚ := ![⟨0, 0⟩, ⟨3, 3⟩, ⟨3, 0⟩]

/-- The lower left half, its corners given in another order. -/
def lowerHalf : Fin 3 → Point ℚ := ![⟨0, 0⟩, ⟨3, 3⟩, ⟨0, 3⟩] ∘ Equiv.swap 0 1

def wholeTarget : View := ⟨0, 0, 8, 8, 8, 8, 0, 8, false, false⟩

/-- Only one of the two halves covers the pixel on their common edge. -/
theorem shared_edge_square :
    ¬ ((1, 1) ∈ rasterTriangle wholeTarget upperHalf ∧
      (1, 1) ∈ rasterTriangle wholeTarget lowerHalf) :=
  (shared_edge_once wholeTarget (⟨0, 0⟩ : Point ℚ) ⟨3, 3⟩ ⟨3, 0⟩ ⟨0, 3⟩ (Equiv.refl _)
    (Equiv.swap 0 1) (by norm_num [edge]) ⟨by simp [wholeTarget], by simp [wholeTarget]⟩
    ⟨by simp [wholeTarget], by simp [wholeTarget]⟩ (1, 1)).1

end MinimalOS.Gpu
