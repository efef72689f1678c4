import Mathlib.Algebra.Order.Floor.Div
import Mathlib.Data.Finset.Max
import Mathlib.Tactic.Common

/-!
# The VRAM allocator of `modules/GPU/gpucore.c`

One table of blocks serves all adapters. `gpu_vram_alloc` tries the start of the heap and the
end of every block of the adapter, each rounded up to the alignment, and takes the first start
at which nothing clashes. All sums are taken in 64 bits; as long as none wraps, the blocks of an
adapter stay apart and inside its heap, and a request fails only for want of a gap (`vram_runs`).
-/

namespace MinimalOS.Gpu

open List

abbrev gpuVramMaxBlocks : ℕ := 128
abbrev gpuVramInvalid : ℕ := 2 ^ 64 - 1

/-- The heap of an adapter; without one `hasHeap` is false. -/
structure Adapter where
  hasHeap : Bool
  heapStart : ℕ
  heapEnd : ℕ
  start_le : heapStart ≤ heapEnd

structure VramBlock where
  offset : ℕ
  size : ℕ
  owner : ℕ
  adapter : ℕ
  deriving DecidableEq

/-- `g_blocks`, with `none` for a slot that is not used. -/
abbrev Table := List (Option VramBlock)

def blocksOf (t : Table) (index : ℕ) : List VramBlock :=
  t.filterMap fun o => o.filter fun b => b.adapter = index

def tryStart (gpu : Adapter) (blocks : List VramBlock) (size align start : ℕ) : Option ℕ :=
  let start := (start + align - 1) % 2 ^ 64 / align * align
  if start < gpu.heapStart ∨ gpu.heapEnd < (start + size) % 2 ^ 64 then none
  else if blocks.any fun b =>
      start < (b.offset + b.size) % 2 ^ 64 ∧ b.offset < (start + size) % 2 ^ 64 then none
  else if start = gpuVramInvalid then none
  else some start

def firstFit (gpu : Adapter) (blocks : List VramBlock) (size align : ℕ) : Option ℕ :=
  (gpu.heapStart :: blocks.map fun b => (b.offset + b.size) % 2 ^ 64).findSome?
    (tryStart gpu blocks size align)

def pageRound (size : ℕ) : ℕ := (size + 4095) % 2 ^ 64 / 4096 * 4096

variable (gpus : ℕ → Adapter)

def gpuVramAlloc (t : Table) (index size align owner : ℕ) : Option ℕ × Table :=
  if ¬ (gpus index).hasHeap ∨ size = 0 then (none, t)
  else
    match firstFit (gpus index) (blocksOf t index) (pageRound size) (max align 4096),
      t.findIdx? Option.isNone with
    | some best, some slot => (some best, t.set slot (some ⟨best, pageRound size, owner, index⟩))
    | _, _ => (none, t)

/-- Clear the first slot with a block that `p` holds of. -/
def freeFirst (t : Table) (p : VramBlock → Bool) : Table :=
  match t.findIdx? (Option.any p) with
  | some i => t.set i none
  | none => t

def gpuVramFree (t : Table) (index offset : ℕ) : Table :=
  freeFirst t fun b => b.adapter = index ∧ b.offset = offset

inductive Call
  | alloc (index size align owner : ℕ)
  | free (index offset : ℕ)

def step (t : Table) : Call → Table
  | .alloc index size align owner => (gpuVramAlloc gpus t index size align owner).2
  | .free index offset => gpuVramFree t index offset

def run (calls : List Call) : Table :=
  calls.foldl (step gpus) (List.replicate gpuVramMaxBlocks none)

/-! ## Gaps -/

/-- No sum of a request wraps. -/
def Call.Small : Call → Prop
  | .alloc index size align _ =>
    (gpus index).heapEnd + (size + 4095) + max align 4096 ≤ 2 ^ 64
  | .free _ _ => True

/-- In whole pages and inside the heap. -/
structure Inside (gpu : Adapter) (b : VramBlock) : Prop where
  pages : 4096 ∣ b.size
  pos : 0 < b.size
  low : gpu.heapStart ≤ b.offset
  high : b.offset + b.size ≤ gpu.heapEnd

/-- `size` free bytes at a multiple of `align`. -/
structure Gap (gpu : Adapter) (blocks : List VramBlock) (size align start : ℕ) : Prop where
  aligned : align ∣ start
  low : gpu.heapStart ≤ start
  high : start + size ≤ gpu.heapEnd
  apart : ∀ b ∈ blocks, b.offset + b.size ≤ start ∨ start + size ≤ b.offset

theorem pageRound_le (size : ℕ) (h : size + 4095 < 2 ^ 64) :
    size ≤ pageRound size ∧ pageRound size ≤ size + 4095 := by
  unfold pageRound
  omega

section Search

variable {gpu : Adapter} {blocks : List VramBlock} {size align : ℕ}
  (halign : 1 < align) (hsmall : gpu.heapEnd + size + align ≤ 2 ^ 64)
  (hin : ∀ b ∈ blocks, Inside gpu b)
include halign hsmall hin

variable {e s : ℕ}

/-- Without a wrap a round finds the least multiple behind its candidate, if that is a gap. -/
theorem tryStart_eq_some (he : e ≤ gpu.heapEnd) :
    tryStart gpu blocks size align e = some s ↔
      s = align * (e ⌈/⌉ align) ∧ Gap gpu blocks size align s := by
  have hround : (e + align - 1) % 2 ^ 64 / align * align = align * (e ⌈/⌉ align) := by
    rw [Nat.mod_eq_of_lt (by omega), Nat.ceilDiv_eq_add_pred_div, mul_comm]
  have hle : align * (e ⌈/⌉ align) < e + align := by
    have := Nat.div_mul_le_self (e + align - 1) align
    rw [Nat.ceilDiv_eq_add_pred_div, mul_comm]
    omega
  unfold tryStart
  rw [hround]
  dsimp only
  generalize hstart : align * (e ⌈/⌉ align) = start at hle
  have hdvd : align ∣ start := ⟨_, hstart.symm⟩
  have hany : (blocks.any fun b => start < (b.offset + b.size) % 2 ^ 64 ∧
      b.offset < (start + size) % 2 ^ 64) = false ↔
      ∀ b ∈ blocks, b.offset + b.size ≤ start ∨ start + size ≤ b.offset := by
    rw [any_eq_false]
    refine forall₂_congr fun b hb => ?_
    have := (hin b hb).high
    rw [Nat.mod_eq_of_lt (by omega), decide_eq_true_eq]
    omega
  constructor
  · intro h
    split_ifs at h with hout hclash
    cases h
    exact ⟨rfl, hdvd, by omega, by omega, hany.mp (Bool.not_eq_true _ ▸ hclash)⟩
  · rintro ⟨rfl, hgap⟩
    have := hgap.low
    have := hgap.high
    rw [if_neg (by omega), hany.mpr hgap.apart, if_neg Bool.false_ne_true, if_neg]
    rw [gpuVramInvalid]
    omega

omit halign hsmall in
theorem mem_starts (he : e ∈ gpu.heapStart :: blocks.map fun b => (b.offset + b.size) % 2 ^ 64) :
    e ≤ gpu.heapEnd := by
  rcases mem_cons.mp he with rfl | he
  · exact gpu.start_le
  · obtain ⟨b, hb, rfl⟩ := mem_map.mp he
    exact (Nat.mod_le _ _).trans (hin b hb).high

theorem firstFit_some (h : firstFit gpu blocks size align = some s) :
    Gap gpu blocks size align s := by
  obtain ⟨e, he, htry⟩ := exists_of_findSome?_eq_some h
  exact ((tryStart_eq_some halign hsmall hin (mem_starts hin he)).mp htry).2

theorem firstFit_none (h : firstFit gpu blocks size align = none) (s : ℕ) :
    ¬ Gap gpu blocks size align s := by
  intro hgap
  obtain ⟨e, he, hmax⟩ := Finset.exists_max_image
    (((gpu.heapStart :: blocks.map fun b => (b.offset + b.size) % 2 ^ 64).filter
      (· ≤ s)).toFinset) id ⟨gpu.heapStart, by simp [hgap.low]⟩
  rw [mem_toFinset, mem_filter, decide_eq_true_eq] at he
  have hlow : e ≤ align * (e ⌈/⌉ align) := le_smul_ceilDiv (by omega : 0 < align)
  have hle : align * (e ⌈/⌉ align) ≤ s := by
    obtain ⟨k, rfl⟩ := hgap.aligned
    exact Nat.mul_le_mul_left _ ((ceilDiv_le_iff_le_mul (by omega)).mpr he.2)
  refine Option.some_ne_none _ (((tryStart_eq_some halign hsmall hin
    (mem_starts hin he.1)).mpr ⟨rfl, dvd_mul_right _ _, ?_, ?_, fun b hb => ?_⟩).symm.trans
      (List.findSome?_eq_none_iff.mp h e he.1))
  · exact (hmax _ (by simp [hgap.low])).trans hlow
  · have := hgap.high
    omega
  · have hend := (hin b hb).high
    rcases hgap.apart b hb with hb' | hb'
    · refine .inl ((hmax _ ?_).trans hlow)
      rw [mem_toFinset, mem_filter, decide_eq_true_eq]
      refine ⟨mem_cons_of_mem _ (mem_map.mpr ⟨b, hb, ?_⟩), hb'⟩
      exact Nat.mod_eq_of_lt (by omega)
    · exact .inr (by omega)

end Search

/-! ## Runs -/

/-- Each block is inside the heap of its adapter, and no two of one adapter meet. -/
structure Inv (t : Table) : Prop where
  inside : ∀ (i : ℕ) b, t[i]? = some (some b) → Inside (gpus b.adapter) b
  apart : ∀ (i j : ℕ) b c, i ≠ j → t[i]? = some (some b) → t[j]? = some (some c) →
    b.adapter = c.adapter → b.offset + b.size ≤ c.offset ∨ c.offset + c.size ≤ b.offset

variable {t : Table} {b : VramBlock}

theorem mem_blocksOf {index : ℕ} :
    b ∈ blocksOf t index ↔ (∃ i : ℕ, t[i]? = some (some b)) ∧ b.adapter = index := by
  rw [← mem_iff_getElem?, blocksOf, mem_filterMap]
  simp only [Option.filter_eq_some_iff, decide_eq_true_eq]
  exact ⟨fun ⟨_, ho, rfl, hb⟩ => ⟨ho, hb⟩, fun ⟨ho, hb⟩ => ⟨_, ho, rfl, hb⟩⟩

variable {gpus}

theorem Inv.clear (h : Inv gpus t) (k : ℕ) : Inv gpus (t.set k none) := by
  have hget : ∀ {i : ℕ} {b}, (t.set k none)[i]? = some (some b) → t[i]? = some (some b) := by
    intro i b hi
    rw [List.getElem?_set] at hi
    split_ifs at hi
    · simp at hi
    · exact hi
  exact ⟨fun i b hi => h.inside i b (hget hi),
    fun i j b c hij hi hj => h.apart i j b c hij (hget hi) (hget hj)⟩

theorem Inv.fill (h : Inv gpus t) {k : ℕ} (hb : Inside (gpus b.adapter) b)
    (hapart : ∀ c ∈ blocksOf t b.adapter,
      c.offset + c.size ≤ b.offset ∨ b.offset + b.size ≤ c.offset) :
    Inv gpus (t.set k (some b)) := by
  have hget : ∀ {i : ℕ} {c}, (t.set k (some b))[i]? = some (some c) →
      i = k ∧ c = b ∨ i ≠ k ∧ t[i]? = some (some c) := by
    intro i c hi
    rw [List.getElem?_set] at hi
    split_ifs at hi with hk
    · exact .inl ⟨hk.symm, (Option.some.inj (Option.some.inj hi)).symm⟩
    · exact .inr ⟨Ne.symm hk, hi⟩
  refine ⟨fun i c hi => ?_, fun i j c d hij hi hj hadapter => ?_⟩
  · obtain ⟨-, rfl⟩ | ⟨-, hi⟩ := hget hi
    · exact hb
    · exact h.inside i c hi
  · obtain ⟨rfl, rfl⟩ | ⟨-, hi'⟩ := hget hi <;> obtain ⟨rfl, rfl⟩ | ⟨-, hj'⟩ := hget hj
    · exact absurd rfl hij
    · exact (hapart d (mem_blocksOf.mpr ⟨⟨j, hj'⟩, hadapter.symm⟩)).symm
    · exact hapart c (mem_blocksOf.mpr ⟨⟨i, hi'⟩, hadapter⟩)
    · exact h.apart i j c d hij hi' hj' hadapter

theorem gpuVramAlloc_cases (h : Inv gpus t) {index size align owner : ℕ}
    (hsmall : (Call.alloc index size align owner).Small gpus) :
    (∃ s k, gpuVramAlloc gpus t index size align owner =
        (some s, t.set k (some ⟨s, pageRound size, owner, index⟩)) ∧ 0 < size ∧
      t[k]? = some none ∧ Gap (gpus index) (blocksOf t index) (pageRound size) (max align 4096) s) ∨
    gpuVramAlloc gpus t index size align owner = (none, t) ∧
      ((gpus index).hasHeap → 0 < size → none ∈ t →
        ∀ s, ¬ Gap (gpus index) (blocksOf t index) (pageRound size) (max align 4096) s) := by
  have hround := pageRound_le size (by unfold Call.Small at hsmall; omega)
  have hin : ∀ b ∈ blocksOf t index, Inside (gpus index) b := fun b hb => by
    obtain ⟨⟨i, hi⟩, rfl⟩ := mem_blocksOf.mp hb
    exact h.inside i b hi
  have hfit : (gpus index).heapEnd + pageRound size + max align 4096 ≤ 2 ^ 64 := by
    unfold Call.Small at hsmall
    omega
  unfold gpuVramAlloc
  by_cases hno : ¬ (gpus index).hasHeap ∨ size = 0
  · rw [if_pos hno]
    refine .inr ⟨rfl, fun hheap hpos => ?_⟩
    rcases hno with hno | rfl
    · exact absurd hheap hno
    · exact absurd hpos (lt_irrefl 0)
  rw [if_neg hno]
  rcases hbest : firstFit (gpus index) (blocksOf t index) (pageRound size) (max align 4096)
    with _ | best
  · exact .inr ⟨rfl, fun _ _ _ => firstFit_none (by omega) hfit hin hbest⟩
  rcases hslot : t.findIdx? Option.isNone with _ | slot
  · refine .inr ⟨rfl, fun _ _ hfree => ?_⟩
    exact absurd (List.findIdx?_eq_none_iff.mp hslot none hfree) (by simp)
  · obtain ⟨hlt, hnone, -⟩ := List.findIdx?_eq_some_iff_getElem.mp hslot
    refine .inl ⟨best, slot, rfl, by omega, ?_, firstFit_some (by omega) hfit hin hbest⟩
    rw [List.getElem?_eq_getElem hlt, Option.isNone_iff_eq_none.mp hnone]

theorem Inv.step (h : Inv gpus t) {c : Call} (hsmall : c.Small gpus) :
    Inv gpus (step gpus t c) := by
  cases c with
  | alloc index size align owner =>
    obtain ⟨s, k, heq, hpos, -, hgap⟩ | ⟨heq, -⟩ := gpuVramAlloc_cases h hsmall
    all_goals rw [Gpu.step, heq]
    · have := pageRound_le size (by unfold Call.Small at hsmall; omega)
      exact h.fill ⟨Nat.dvd_mul_left _ _, by dsimp only; omega, hgap.low, hgap.high⟩ hgap.apart
    · exact h
  | free index offset =>
    rw [Gpu.step, gpuVramFree, freeFirst]
    split
    · exact h.clear _
    · exact h

theorem Inv.run {calls : List Call} (hsmall : ∀ c ∈ calls, c.Small gpus) :
    Inv gpus (run gpus calls) := by
  refine List.foldlRecOn calls _ ⟨fun i b hi => ?_, fun i j b c _ hi => ?_⟩
    fun t h c hc => h.step (hsmall c hc)
  all_goals
    have := eq_of_mem_replicate (mem_of_getElem? hi)
    simp at this

/-- **The VRAM heap.** After any calls whose sums do not wrap, the blocks of an adapter are whole
pages inside its heap, no two of them meet, and a request is served in an aligned gap if there is
one and a free slot. -/
theorem vram_runs (gpus : ℕ → Adapter) (calls : List Call) (hsmall : ∀ c ∈ calls, c.Small gpus)
    (index size align owner : ℕ) (hnext : (Call.alloc index size align owner).Small gpus)
    (hheap : (gpus index).hasHeap) (hpos : 0 < size)
    (halign : align = 0 ∨ align ∣ 4096 ∨ 4096 ≤ align) :
    Inv gpus (run gpus calls) ∧
      match (gpuVramAlloc gpus (run gpus calls) index size align owner).1 with
      | some s => (align = 0 ∨ align ∣ s) ∧ size ≤ pageRound size ∧
          Gap (gpus index) (blocksOf (run gpus calls) index) (pageRound size) (max align 4096) s
      | none => none ∈ run gpus calls → ¬ ∃ s,
          Gap (gpus index) (blocksOf (run gpus calls) index) (pageRound size) (max align 4096) s := by
  have h := Inv.run hsmall
  refine ⟨h, ?_⟩
  obtain ⟨s, k, heq, -, -, hgap⟩ | ⟨heq, hnone⟩ := gpuVramAlloc_cases h hnext
  all_goals rw [heq]
  · refine ⟨halign.imp_right fun halign => dvd_trans ?_ hgap.aligned, ?_, hgap⟩
    · rcases halign with hdvd | hge
      · rwa [max_eq_right (Nat.le_of_dvd (by decide) hdvd)]
      · rw [max_eq_left hge]
    · exact (pageRound_le size (by unfold Call.Small at hnext; omega)).1
  · exact fun hfree ⟨s, hgap⟩ => hnone hheap hpos hfree s hgap

def smallGpu : Adapter := ⟨true, 2 ^ 20, 2 ^ 24, by decide⟩

def twoPages : Table := run (fun _ => smallGpu) [.alloc 0 1 0 7, .alloc 0 1 0 7]

theorem vram_runs_two : Inv (fun _ => smallGpu) twoPages ∧
    blocksOf twoPages 0 = [⟨2 ^ 20, 4096, 7, 0⟩, ⟨2 ^ 20 + 4096, 4096, 7, 0⟩] ∧
    (gpuVramAlloc (fun _ => smallGpu) twoPages 0 5000 8192 7).1 = some (2 ^ 20 + 8192) ∧
    8192 ∣ 2 ^ 20 + 8192 ∧ Gap smallGpu (blocksOf twoPages 0) 8192 8192 (2 ^ 20 + 8192) := by
  have hserved : (gpuVramAlloc (fun _ => smallGpu) twoPages 0 5000 8192 7).1 =
      some (2 ^ 20 + 8192) := by decide +kernel
  obtain ⟨hinv, hgap⟩ := vram_runs (fun _ => smallGpu) [.alloc 0 1 0 7, .alloc 0 1 0 7]
    (by simp [Call.Small, smallGpu]) 0 5000 8192 7 (by simp [Call.Small, smallGpu]) rfl
    (by decide) (by decide)
  rw [← twoPages, hserved] at hgap
  exact ⟨hinv, by decide +kernel, hserved, hgap.1.resolve_left (by decide), hgap.2.2⟩

/-- A request for all but a page of the 64-bit space is served by a block that leaves the heap. -/
theorem vram_wraps : ¬ Inv (fun _ => smallGpu)
    (run (fun _ => smallGpu) [.alloc 0 (2 ^ 64 - 4096) 4096 7]) := by
  intro h
  have hget : (run (fun _ => smallGpu) [.alloc 0 (2 ^ 64 - 4096) 4096 7])[0]? =
      some (some ⟨2 ^ 20, 2 ^ 64 - 4096, 7, 0⟩) := by decide +kernel
  exact absurd (h.inside 0 _ hget).high (by decide)

end MinimalOS.Gpu
