import MinimalOS.Minimafs.Allocator

/-!
# Runs of the block allocator

A drive's allocator serves allocations, frees and marks in any order, and the heap may refuse to
grow the extent list at any of them. With a heap that never refuses, the list stays in order and
`free_blocks` counts what it leaves free. A refused mark is the one step that loses blocks:
`ba_mark_used_locked` returns without a word, and `block_alloc_run` hands out a run that the list
does not have. A refused split of `block_free_run` only keeps blocks used that were given back.
-/

namespace MinimalOS.Minimafs

open Intervals

variable {s e total n cap : ℕ} {heap : Bool} {a : BlockAlloc} {ext : List Extent}

/-! ## Allocating -/

structure BlockAlloc.Valid (a : BlockAlloc) : Prop where
  ordered : Ordered a.totalBlocks a.ext
  counted : a.freeBlocks = a.totalBlocks - usedBlocks a.ext
  small : a.totalBlocks < 2 ^ 32

/-- What `block_alloc_run` is for: the lowest run, which is then used, or no change at all. -/
structure Allocated (a : BlockAlloc) (count : ℕ) (r : Option ℕ × BlockAlloc) : Prop where
  lowest : Lowest a.totalBlocks a.ext count r.1
  failed : r.1 = none → r.2 = a
  used : ∀ p, r.1 = some p → ∀ b, Used r.2.ext b ↔ Used a.ext b ∨ (p ≤ b ∧ b < p + count)

/-- The list has room for the run of an allocation: it can grow, or one of the first blocks is used
and the run will touch an extent, or the volume is too small for a run. -/
def AllocOk (heap : Bool) (a : BlockAlloc) (count : ℕ) : Prop :=
  heap = true ∨ a.ext.length < a.cap ∨ (∃ b ≤ count + 1, Used a.ext b) ∨ a.totalBlocks ≤ count

variable {count p : ℕ}

theorem AllocOk.markOk (hok : AllocOk heap a count) (hcount : 0 < count)
    (hext : Ordered a.totalBlocks a.ext) (hp : Lowest a.totalBlocks a.ext count (some p)) :
    MarkOk heap a p count := by
  have hfits := hp.2.1.1
  by_cases hone : p = 1
  · rcases hok with hheap | hcap | ⟨b, hb, x, hx, hstart, hstop⟩ | hsmall
    · exact .inl hheap
    · exact .inr (.inl hcap)
    · have hwithin := hext.within x hx
      exact .inr (.inr (.inl ⟨x, hx, by omega, by omega⟩))
    · omega
  · obtain ⟨x, hx, hstop, hstart⟩ := hp.borders hcount hone
    exact .inr (.inr (.inl ⟨x, hx, hstop.ge, by omega⟩))

theorem findGap_front (hfront : ∀ b ≤ count + 1, ¬ Used ext b) (hcount : 0 < count)
    (hfits : count < total) (hext : Ordered total ext) : findGap total count 1 ext = some 1 := by
  cases ext with
  | nil => exact if_pos ⟨by omega, by omega⟩
  | cons x xs =>
    have hx : count + 1 < x.start := by
      by_contra hle
      exact hfront x.start (not_lt.mp hle)
        ((used_cons _).mpr (.inl ⟨le_rfl, (spread_cons.mp hext).1⟩))
    exact if_pos ⟨by omega, by omega⟩

theorem not_markOk_front (hext : Ordered a.totalBlocks a.ext) (hok : ¬ AllocOk heap a count)
    (hcount : 0 < count) : ¬ MarkOk heap a 1 count := by
  simp only [AllocOk, not_or, not_exists, not_and] at hok
  obtain ⟨hheap, hcap, hfront, hfits⟩ := hok
  rintro (h | h | ⟨x, hx, -, hstart⟩ | h | h)
  · exact hheap h
  · exact hcap h
  · exact hfront x.start (by omega) ⟨x, hx, le_rfl, hext.proper x hx⟩
  · omega
  · omega

theorem blockAllocRun_some (heap : Bool) (hcount : 0 < count)
    (hp : findGap a.totalBlocks count 1 a.ext = some p) :
    blockAllocRun heap a count = (some p, baMarkUsed heap a p count) := by
  unfold blockAllocRun
  rw [if_neg hcount.ne', hp]

theorem blockAllocRun_none (hp : findGap a.totalBlocks count 1 a.ext = none) :
    blockAllocRun heap a count = (none, a) := by
  unfold blockAllocRun
  rw [hp]
  exact ite_self _

/-- **Allocation.** The call returns the lowest free run and marks exactly it, or fails without a
change because there is none, if and only if the list has room for the run. -/
theorem blockAllocRun_allocated_iff (heap : Bool) (a : BlockAlloc) (count : ℕ) (ha : a.Valid)
    (hcount : 1 ≤ count) :
    Allocated a count (blockAllocRun heap a count) ↔
      heap = true ∨ a.ext.length < a.cap ∨ (∃ b ≤ count + 1, Used a.ext b) ∨
        a.totalBlocks ≤ count := by
  have hlow := findGap_lowest_one ha.ordered hcount
  constructor
  · intro h
    by_contra hok
    have hfront : ∀ b ≤ count + 1, ¬ Used a.ext b := fun b hb hu =>
      hok (.inr (.inr (.inl ⟨b, hb, hu⟩)))
    have hfits : count < a.totalBlocks := not_le.mp fun hle =>
      hok (.inr (.inr (.inr hle)))
    have hrun := blockAllocRun_some heap hcount
      (findGap_front hfront hcount hfits ha.ordered)
    have hused := (h.used 1 (by rw [hrun]) 1).mpr (.inr ⟨le_rfl, by omega⟩)
    rw [hrun, baMarkUsed_ext_of_not ha.ordered (not_markOk_front ha.ordered hok hcount)] at hused
    exact hfront 1 (by omega) hused
  · intro hok
    cases hp : findGap a.totalBlocks count 1 a.ext with
    | none =>
      rw [blockAllocRun_none hp]
      exact ⟨hp ▸ hlow, fun _ => rfl, nofun⟩
    | some p =>
      rw [hp] at hlow
      have hmark := baMarkUsed_marked ha.ordered (AllocOk.markOk hok hcount ha.ordered hlow)
      rw [blockAllocRun_some heap hcount hp]
      refine ⟨hlow, nofun, fun q hq b => ?_⟩
      obtain rfl : p = q := Option.some.inj hq
      have hfits := hlow.2.1.1
      rw [hmark.used b]
      exact or_congr_right ⟨fun h => ⟨h.1, h.2.1⟩, fun h => ⟨h.1, h.2, by omega⟩⟩

/-- Three blocks are taken behind the two that are used, and the list need not grow. -/
theorem blockAllocRun_allocated_iff_sample :
    Allocated ⟨[⟨0, 2⟩], 1, 8, 6⟩ 3 (blockAllocRun false ⟨[⟨0, 2⟩], 1, 8, 6⟩ 3) :=
  (blockAllocRun_allocated_iff false ⟨[⟨0, 2⟩], 1, 8, 6⟩ 3
    ⟨spread_cons.mpr ⟨by decide, by decide, nofun, spread_nil⟩, by decide, by decide⟩
    (by decide)).mpr (.inr (.inr (.inl ⟨0, by decide, ⟨0, 2⟩, by decide, by decide, by decide⟩)))

/-- The heap refuses the first extent of an empty volume: block 1 is handed out and stays free. -/
theorem blockAllocRun_unmarked :
    BlockAlloc.Valid ⟨[], 0, 8, 8⟩ ∧
      ¬ Allocated ⟨[], 0, 8, 8⟩ 1 (blockAllocRun false ⟨[], 0, 8, 8⟩ 1) := by
  refine ⟨⟨spread_nil, by decide, by decide⟩, fun h => ?_⟩
  have hused := (h.used 1 (by decide) 1).mpr (.inr ⟨by decide, by decide⟩)
  have hnone : (blockAllocRun false ⟨[], 0, 8, 8⟩ 1).2.ext = [] := by decide
  exact covers_nil 1 hused

/-! ## Freeing -/

/-- What the loop of `block_free_run` makes of a list. -/
structure Freed (heap : Bool) (s e total : ℕ) (l : List Extent) (r : List Extent × ℕ × ℕ) :
    Prop where
  keeps : ∀ b, Used r.1 b → Used l b
  spares : ∀ b, Used l b → b < s ∨ e ≤ b → Used r.1 b
  inside : ∀ y ∈ r.1, ∃ x ∈ l, x.start ≤ y.start ∧ y.stop ≤ x.stop
  ordered : Ordered total r.1
  removes : heap = true → ∀ b, Used r.1 b → b < s ∨ e ≤ b
  counts : heap = true → usedBlocks l = usedBlocks r.1 + r.2.1

variable {x y : Extent} {xs : List Extent} {r : List Extent × ℕ × ℕ}

theorem Freed.refl (hext : Ordered total ext) (hout : heap = true → ∀ b, Used ext b → b < s ∨ e ≤ b)
    (cap : ℕ) : Freed heap s e total ext (ext, 0, cap) :=
  ⟨fun _ h => h, fun _ h _ => h, fun y hy => ⟨y, hy, le_rfl, le_rfl⟩, hext, hout, fun _ => rfl⟩

theorem Freed.cons (hext : Ordered total (x :: xs)) (hr : Freed heap s e total xs r)
    (hstart : y.start = x.start) (hstop : y.stop = min x.stop s) (hys : x.start < s)
    (hend : x.stop ≤ e ∨ x.stop ≤ s) :
    Freed heap s e total (x :: xs) (y :: r.1, (x.stop - y.stop) + r.2.1, r.2.2) := by
  obtain ⟨hproper, hwithin, hgap, hrest⟩ := spread_cons.mp hext
  refine ⟨fun b hb => ?_, fun b hb hout => ?_, fun z hz => ?_, spread_cons.mpr ⟨by omega, by omega,
    fun z hz => ?_, hr.ordered⟩, fun hheap b hb => ?_, fun hheap => ?_⟩
  · rw [used_cons] at hb ⊢
    exact hb.imp (fun h => by omega) (hr.keeps b)
  · rw [used_cons] at hb ⊢
    exact hb.imp (fun h => by omega) fun h => hr.spares b h hout
  · rcases List.mem_cons.mp hz with rfl | hz
    · exact ⟨x, List.mem_cons_self, hstart.ge, by omega⟩
    · obtain ⟨w, hw, h⟩ := hr.inside z hz
      exact ⟨w, List.mem_cons_of_mem x hw, h⟩
  · obtain ⟨w, hw, h⟩ := hr.inside z hz
    have := hgap w hw
    omega
  · rcases (used_cons b).mp hb with hb | hb
    · omega
    · exact hr.removes hheap b hb
  · have := hr.counts hheap
    have hx : usedBlocks (x :: xs) = x.stop - x.start + usedBlocks xs := size_cons
    have hy : usedBlocks (y :: r.1) = y.stop - y.start + usedBlocks r.1 := size_cons
    dsimp only
    omega

theorem Freed.drop (hr : Freed heap s e total xs r) (hstart : s ≤ x.start) (hstop : x.stop ≤ e) :
    Freed heap s e total (x :: xs) (r.1, (x.stop - x.start) + r.2.1, r.2.2) := by
  refine ⟨fun b hb => (used_cons b).mpr (.inr (hr.keeps b hb)), fun b hb hout => ?_, fun z hz => ?_,
    hr.ordered, hr.removes, fun hheap => ?_⟩
  · rcases (used_cons b).mp hb with hb | hb
    · omega
    · exact hr.spares b hb hout
  · obtain ⟨w, hw, h⟩ := hr.inside z hz
    exact ⟨w, List.mem_cons_of_mem x hw, h⟩
  · have := hr.counts hheap
    have hx : usedBlocks (x :: xs) = x.stop - x.start + usedBlocks xs := size_cons
    dsimp only
    omega

/-- The freed range ends inside the first extent, which keeps its upper part, and a lower part
`low` if the range starts inside it too. -/
theorem Freed.upper (heap : Bool) (low : List Extent) (hext : Ordered total (x :: xs)) (hstop : e < x.stop)
    (hse : max x.start s < e) (hlow : Ordered (max x.start s) low)
    (hused : ∀ b, Used low b ↔ x.start ≤ b ∧ b < s) (hinside : ∀ z ∈ low, x.start ≤ z.start)
    (hsize : usedBlocks low = s - x.start) (cap : ℕ) :
    Freed heap s e total (x :: xs)
      (low ++ ⟨e, x.stop - e⟩ :: xs, e - max x.start s, cap) := by
  obtain ⟨hproper, hwithin, hgap, hrest⟩ := spread_cons.mp hext
  have hupper : (⟨e, x.stop - e⟩ : Extent).stop = x.stop := by
    show e + (x.stop - e) = x.stop
    omega
  have hnew : ∀ b, Used (low ++ ⟨e, x.stop - e⟩ :: xs) b ↔
      (x.start ≤ b ∧ b < s) ∨ (e ≤ b ∧ b < x.stop) ∨ Used xs b := by
    intro b
    rw [used_append, used_cons, hused, hupper]
  refine ⟨fun b hb => ?_, fun b hb hout => ?_, fun z hz => ?_, spread_append.mpr ⟨?_, ?_, ?_⟩,
    fun _ b hb => ?_, fun _ => ?_⟩
  · rw [used_cons]
    rcases (hnew b).mp hb with hb | hb | hb
    · exact .inl ⟨hb.1, by omega⟩
    · exact .inl ⟨by omega, hb.2⟩
    · exact .inr hb
  · rw [hnew]
    rcases (used_cons b).mp hb with hb | hb
    · exact hout.imp (fun h => ⟨hb.1, h⟩) fun h => .inl ⟨h, hb.2⟩
    · exact .inr (.inr hb)
  · rcases List.mem_append.mp hz with hz | hz
    · have := hlow.within z hz
      exact ⟨x, List.mem_cons_self, hinside z hz, by omega⟩
    · rcases List.mem_cons.mp hz with rfl | hz
      · exact ⟨x, List.mem_cons_self, by dsimp only; omega, hupper.le⟩
      · exact ⟨z, List.mem_cons_of_mem x hz, le_rfl, le_rfl⟩
  · exact ⟨hlow.apart, hlow.proper, fun z hz => by have := hlow.within z hz; omega⟩
  · refine spread_cons.mpr ⟨?_, ?_, fun z hz => ?_, hrest⟩
    · rw [hupper]
      exact hstop
    · rw [hupper]
      exact hwithin
    · rw [hupper]
      exact hgap z hz
  · intro z hz w hw
    have hz := hlow.within z hz
    rcases List.mem_cons.mp hw with rfl | hw
    · dsimp only
      omega
    · have := hgap w hw
      omega
  · rcases (hnew b).mp hb with hb | hb | ⟨z, hz, hb⟩
    · exact .inl hb.2
    · exact .inr hb.1
    · have := hgap z hz
      omega
  · have hx : usedBlocks (x :: xs) = x.stop - x.start + usedBlocks xs := size_cons
    have hy : usedBlocks (low ++ ⟨e, x.stop - e⟩ :: xs) =
        usedBlocks low + ((⟨e, x.stop - e⟩ : Extent).stop - e + usedBlocks xs) := by
      rw [usedBlocks, size_append, size_cons]
    dsimp only
    omega

theorem freeLoop_freed (heap : Bool) (n cap : ℕ) (hse : s < e) (hext : Ordered total ext) :
    Freed heap s e total ext (freeLoop heap s e n cap ext) := by
  induction ext generalizing n with
  | nil => exact .refl spread_nil (fun _ b hb => absurd hb (covers_nil b)) cap
  | cons x xs ih =>
    obtain ⟨hproper, hwithin, hgap, hrest⟩ := spread_cons.mp hext
    unfold freeLoop
    by_cases hbefore : x.stop ≤ s
    · rw [if_pos hbefore]
      have h := Freed.cons hext (ih (n := n) hrest) rfl (by omega) (by omega)
        (.inr hbefore)
      rwa [Nat.sub_self, Nat.zero_add] at h
    · rw [if_neg hbefore]
      by_cases hafter : e ≤ x.start
      · rw [if_pos hafter]
        refine .refl hext (fun _ b hb => ?_) cap
        rcases (used_cons b).mp hb with hb | ⟨z, hz, hb⟩
        · exact .inr (hafter.trans hb.1)
        · have := hgap z hz
          omega
      · rw [if_neg hafter]
        by_cases hleft : x.start < s
        · have hlow : (⟨x.start, s - x.start⟩ : Extent).stop = s := by
            show x.start + (s - x.start) = s
            omega
          rw [if_pos hleft]
          by_cases hright : e < x.stop
          · rw [if_pos hright]
            cases hres : baReserve heap ⟨[], cap, 0, 0⟩ (n + 1) with
            | none =>
              -- only a heap that refuses leaves the extent whole
              have hheap : heap ≠ true := by
                rintro rfl
                obtain ⟨cap', h⟩ := baReserve_isSome (.inl rfl)
                cases hres.symm.trans h
              exact ⟨fun _ h => h, fun _ h _ => h, fun y hy => ⟨y, hy, le_rfl, le_rfl⟩, hext,
                fun h => absurd h hheap, fun h => absurd h hheap⟩
            | some a =>
              have hord : Ordered (max x.start s) [⟨x.start, s - x.start⟩] :=
                spread_cons.mpr ⟨by rw [hlow]; exact hleft, by omega, nofun, spread_nil⟩
              have h := Freed.upper heap [⟨x.start, s - x.start⟩] hext hright
                (by omega) hord
                (fun b => by rw [used_cons, hlow]; exact or_iff_left (covers_nil b))
                (fun z hz => (List.mem_singleton.mp hz).symm ▸ le_rfl)
                (by rw [usedBlocks, size_cons, hlow]; rfl) a.cap
              rwa [show e - max x.start s = min x.stop e - max x.start s by omega] at h
          · rw [if_neg hright]
            have h := Freed.cons (y := ⟨x.start, s - x.start⟩) hext (ih (n := n) hrest) rfl
              (by omega) hleft (.inl (by omega))
            rwa [hlow, show x.stop - s = min x.stop e - max x.start s by omega] at h
        · rw [if_neg hleft]
          by_cases hright : e < x.stop
          · rw [if_pos hright]
            have h := Freed.upper (s := s) heap [] hext hright (by omega) spread_nil
              (fun b => ⟨fun hb => absurd hb (covers_nil b), fun hb => by omega⟩) nofun
              (by rw [usedBlocks, size_nil]; omega) cap
            rwa [show e - max x.start s = min x.stop e - max x.start s by omega] at h
          · rw [if_neg hright]
            have h := Freed.drop (x := x) (ih (n := n - 1) hrest) (by omega) (by omega)
            rwa [show x.stop - x.start = min x.stop e - max x.start s by omega] at h

theorem blockFreeRun_used (hext : Ordered a.totalBlocks a.ext) (block count b : ℕ)
    (hb : Used a.ext b) (hout : ¬ (block ≤ b ∧ b < block + count)) :
    Used (blockFreeRun heap a block count).ext b := by
  unfold blockFreeRun
  split_ifs with hcount
  · exact hb
  · exact (freeLoop_freed heap _ _ (by omega) hext).spares b hb (by omega)

theorem blockFreeRun_ordered (hext : Ordered a.totalBlocks a.ext) (block count : ℕ) :
    Ordered a.totalBlocks (blockFreeRun heap a block count).ext := by
  unfold blockFreeRun
  split_ifs with hcount
  · exact hext
  · exact (freeLoop_freed heap _ _ (by omega) hext).ordered

theorem blockFreeRun_valid (ha : a.Valid) (block count : ℕ) :
    (blockFreeRun true a block count).Valid := by
  unfold blockFreeRun
  split_ifs with hcount
  · exact ha
  · have h := freeLoop_freed true a.ext.length a.cap
      (show block < block + count by omega) ha.ordered
    have hcounts := h.counts rfl
    have hle : usedBlocks a.ext ≤ a.totalBlocks := ha.ordered.size_le
    have hfree := ha.counted
    have hsmall := ha.small
    refine ⟨h.ordered, ?_, hsmall⟩
    dsimp only at ⊢
    omega

/-! ## Runs -/

inductive Request where
  | alloc (count : ℕ)
  | free (block count : ℕ)
  | mark (start count : ℕ)

/-- The allocator and the blocks in use: those of runs it returned and of ranges it was told of,
as far as they have not been freed. -/
structure Ledger where
  books : BlockAlloc
  live : ℕ → Bool

/-- Serve a request; `heap` is the answer to the allocation it may make. -/
def serve (heap : Bool) (d : Ledger) : Request → Ledger
  | .alloc count =>
    match blockAllocRun heap d.books count with
    | (none, a) => { d with books := a }
    | (some p, a) => ⟨a, fun b => d.live b || (p ≤ b && b < p + count)⟩
  | .free block count =>
    ⟨blockFreeRun heap d.books block count, fun b => d.live b && !(block ≤ b && b < block + count)⟩
  | .mark start count =>
    ⟨baMarkUsed heap d.books start count,
      fun b => d.live b || (start ≤ b && b < start + count && b < d.books.totalBlocks)⟩

def serveAll (d : Ledger) (rs : List (Bool × Request)) : Ledger :=
  rs.foldl (fun d r => serve r.1 d r.2) d

def Ledger.fresh (a : BlockAlloc) (totalBlocks : UInt32) : Ledger :=
  ⟨blockAllocInit a totalBlocks.toNat, fun _ => false⟩

@[simp] theorem baMarkUsed_totalBlocks (heap : Bool) (a : BlockAlloc) (start count : ℕ) :
    (baMarkUsed heap a start count).totalBlocks = a.totalBlocks := by
  unfold baMarkUsed baReserve
  grind

@[simp] theorem blockFreeRun_totalBlocks (heap : Bool) (a : BlockAlloc) (block count : ℕ) :
    (blockFreeRun heap a block count).totalBlocks = a.totalBlocks := by
  unfold blockFreeRun
  split_ifs <;> rfl

theorem baMarkUsed_valid (ha : a.Valid) (start count : ℕ) :
    (baMarkUsed true a start count).Valid := by
  have h := baMarkUsed_marked ha.ordered (show MarkOk true a start count from .inl rfl)
  obtain ⟨newly, hfree, hused⟩ := h.counted
  refine ⟨h.total ▸ h.ordered, ?_, h.total ▸ ha.small⟩
  rw [hfree, hused, ha.counted, h.total, Nat.sub_sub]

theorem blockAllocRun_snd (heap : Bool) (a : BlockAlloc) (count : ℕ) :
    (blockAllocRun heap a count).2 = a ∨
      ∃ p, (blockAllocRun heap a count).2 = baMarkUsed heap a p count := by
  unfold blockAllocRun
  split_ifs
  · exact .inl rfl
  · split
    · exact .inl rfl
    · exact .inr ⟨_, rfl⟩

variable {d : Ledger}

theorem serve_alloc_books (heap : Bool) (d : Ledger) (count : ℕ) :
    (serve heap d (.alloc count)).books = (blockAllocRun heap d.books count).2 := by
  unfold serve
  dsimp only
  split
  · next h => rw [h]
  · next h => rw [h]

theorem serve_valid (hd : d.books.Valid) (r : Request) : (serve true d r).books.Valid := by
  cases r with
  | alloc count =>
    rw [serve_alloc_books]
    rcases blockAllocRun_snd true d.books count with h | ⟨p, h⟩
    · rw [h]
      exact hd
    · rw [h]
      exact baMarkUsed_valid hd p count
  | free block count => exact blockFreeRun_valid hd block count
  | mark start count => exact baMarkUsed_valid hd start count

@[simp] theorem serve_totalBlocks (heap : Bool) (d : Ledger) (r : Request) :
    (serve heap d r).books.totalBlocks = d.books.totalBlocks := by
  cases r with
  | alloc count =>
    rw [serve_alloc_books]
    rcases blockAllocRun_snd heap d.books count with h | ⟨p, h⟩
    · rw [h]
    · rw [h, baMarkUsed_totalBlocks]
  | free block count => exact blockFreeRun_totalBlocks heap d.books block count
  | mark start count => exact baMarkUsed_totalBlocks heap d.books start count

theorem serveAll_valid (hd : d.books.Valid) (rs : List Request) :
    (serveAll d (rs.map (Prod.mk true))).books.Valid ∧
      (serveAll d (rs.map (Prod.mk true))).books.totalBlocks = d.books.totalBlocks := by
  induction rs generalizing d with
  | nil => exact ⟨hd, rfl⟩
  | cons r rs ih =>
    obtain ⟨hvalid, htotal⟩ := ih (serve_valid hd r)
    exact ⟨hvalid, htotal.trans (serve_totalBlocks true d r)⟩

theorem usedBlocks_eq_sum (ext : List Extent) : usedBlocks ext = (ext.map Extent.count).sum := by
  unfold usedBlocks size
  congr 2
  funext x
  exact Nat.add_sub_cancel_left _ _

theorem Ledger.fresh_valid (a : BlockAlloc) (totalBlocks : UInt32) :
    (Ledger.fresh a totalBlocks).books.Valid :=
  ⟨spread_nil, rfl, totalBlocks.toNat_lt⟩

def booksAfter (a : BlockAlloc) (totalBlocks : UInt32) (rs : List Request) : BlockAlloc :=
  (serveAll (Ledger.fresh a totalBlocks) (rs.map (Prod.mk true))).books

/-- **The books.** While the heap never refuses, any sequence of requests keeps the extents in
order, none empty, with gaps between them and inside the volume, and `free_blocks` is what they
leave of it. -/
theorem requests_keep_books (a : BlockAlloc) (totalBlocks : UInt32) (rs : List Request) :
    (booksAfter a totalBlocks rs).totalBlocks = totalBlocks.toNat ∧
      (booksAfter a totalBlocks rs).ext.Pairwise (fun x y => x.stop < y.start) ∧
      (∀ x ∈ (booksAfter a totalBlocks rs).ext, 0 < x.count ∧ x.stop ≤ totalBlocks.toNat) ∧
      (booksAfter a totalBlocks rs).freeBlocks =
        totalBlocks.toNat - ((booksAfter a totalBlocks rs).ext.map Extent.count).sum := by
  obtain ⟨hvalid, htotal⟩ := serveAll_valid (Ledger.fresh_valid a totalBlocks) rs
  have htotal : (booksAfter a totalBlocks rs).totalBlocks = totalBlocks.toNat := htotal
  have hordered := hvalid.ordered
  refine ⟨htotal, hordered.apart, fun x hx => ⟨?_, htotal ▸ hordered.within x hx⟩, ?_⟩
  · exact Nat.pos_of_lt_add_right (hordered.proper x hx)
  · rw [← usedBlocks_eq_sum, ← htotal]
    exact hvalid.counted

/-! ## Live blocks -/

/-- The list has room for what a request marks. A free needs none: a split that fails leaves the
extent whole. -/
def RequestOk (heap : Bool) (a : BlockAlloc) : Request → Prop
  | .alloc count => count = 0 ∨ AllocOk heap a count
  | .free _ _ => True
  | .mark start count => MarkOk heap a start count

def RunOk (d : Ledger) : List (Bool × Request) → Prop
  | [] => True
  | (heap, r) :: rs => RequestOk heap d.books r ∧ RunOk (serve heap d r) rs

structure Ledger.Kept (d : Ledger) : Prop where
  ordered : Ordered d.books.totalBlocks d.books.ext
  live : ∀ b, d.live b = true → Used d.books.ext b

theorem Ledger.Kept.serve {r : Request} (hd : d.Kept) (hok : RequestOk heap d.books r) :
    (serve heap d r).Kept := by
  cases r with
  | alloc count =>
    by_cases hcount : count = 0
    · have hrun : blockAllocRun heap d.books count = (none, d.books) := if_pos hcount
      simp only [Minimafs.serve, hrun]
      exact hd
    · cases hp : findGap d.books.totalBlocks count 1 d.books.ext with
      | none =>
        simp only [Minimafs.serve, blockAllocRun_none hp]
        exact hd
      | some p =>
        have hlow := findGap_lowest_one hd.ordered (Nat.pos_of_ne_zero hcount)
        rw [hp] at hlow
        have hmark := baMarkUsed_marked hd.ordered ((hok.resolve_left hcount).markOk
          (Nat.pos_of_ne_zero hcount) hd.ordered hlow)
        simp only [Minimafs.serve, blockAllocRun_some heap (Nat.pos_of_ne_zero hcount) hp]
        refine ⟨hmark.total ▸ hmark.ordered, fun b hb => (hmark.used b).mpr ?_⟩
        have hfits := hlow.2.1.1
        simp only [Bool.or_eq_true, Bool.and_eq_true, decide_eq_true_eq] at hb
        exact hb.imp (hd.live b) fun h => ⟨h.1, h.2, by omega⟩
  | free block count =>
    refine ⟨?_, fun b hb => ?_⟩
    · rw [serve_totalBlocks]
      exact blockFreeRun_ordered hd.ordered block count
    · simp only [Minimafs.serve, Bool.and_eq_true, Bool.not_eq_true', Bool.and_eq_false_iff,
        decide_eq_false_iff_not] at hb
      exact blockFreeRun_used hd.ordered block count b (hd.live b hb.1) (by omega)
  | mark start count =>
    have hmark := baMarkUsed_marked hd.ordered hok
    refine ⟨?_, fun b hb => (hmark.used b).mpr ?_⟩
    · rw [serve_totalBlocks]
      exact hmark.ordered
    · simp only [Minimafs.serve, Bool.or_eq_true, Bool.and_eq_true, decide_eq_true_eq] at hb
      exact hb.imp (hd.live b) fun h => ⟨h.1.1, h.1.2, h.2⟩

theorem Ledger.Kept.serveAll {rs : List (Bool × Request)} (hd : d.Kept) (hok : RunOk d rs) :
    (serveAll d rs).Kept := by
  induction rs generalizing d with
  | nil => exact hd
  | cons r rs ih => exact ih (hd.serve hok.1) hok.2

/-- **Live blocks.** After a run whose marks all found room in the list, with the heap refusing at
any other point, an allocation never returns a block that is live. -/
theorem live_block_not_returned (a : BlockAlloc) (totalBlocks : UInt32)
    (rs : List (Bool × Request)) (hok : RunOk (Ledger.fresh a totalBlocks) rs)
    (heap : Bool) (count p b : ℕ)
    (hp : (blockAllocRun heap (serveAll (Ledger.fresh a totalBlocks) rs).books count).1 = some p)
    (hb : p ≤ b ∧ b < p + count) : (serveAll (Ledger.fresh a totalBlocks) rs).live b = false := by
  have hkept : (Ledger.fresh a totalBlocks).Kept := ⟨spread_nil, nofun⟩
  have hrun := hkept.serveAll hok
  obtain ⟨hpb, hbp⟩ := hb
  have hcount : 0 < count := by omega
  have hlow := findGap_lowest_one hrun.ordered hcount
  cases hgap : findGap (serveAll (Ledger.fresh a totalBlocks) rs).books.totalBlocks count 1
      (serveAll (Ledger.fresh a totalBlocks) rs).books.ext with
  | none =>
    rw [blockAllocRun_none hgap] at hp
    cases hp
  | some q =>
    rw [blockAllocRun_some heap hcount hgap] at hp
    obtain rfl : q = p := Option.some.inj hp
    rw [hgap] at hlow
    by_contra hlive
    exact hlow.2.1.2 b hpb hbp (hrun.live b (by simpa using hlive))

/-- Two blocks are marked, three allocated and one of them freed by a split that the heap refuses;
the next block comes from behind them. -/
theorem live_block_not_returned_sample :
    (serveAll (Ledger.fresh ⟨[], 1, 0, 0⟩ 8)
      [(false, .mark 0 2), (false, .alloc 3), (false, .free 3 1)]).live 5 = false :=
  live_block_not_returned ⟨[], 1, 0, 0⟩ 8
    [(false, .mark 0 2), (false, .alloc 3), (false, .free 3 1)]
    ⟨.inr (.inl (by decide)), .inr (.inr (.inr (.inl ⟨0, by decide, ⟨0, 2⟩, by decide,
      by decide, by decide⟩))), trivial, trivial⟩
    false 2 5 5 (by decide) (by decide)

/-- The heap refuses the extent of the first allocation, and the second one returns its block. -/
theorem live_block_returned :
    (serveAll (Ledger.fresh ⟨[], 0, 0, 0⟩ 8) [(false, .alloc 1)]).live 1 = true ∧
      (blockAllocRun true
        (serveAll (Ledger.fresh ⟨[], 0, 0, 0⟩ 8) [(false, .alloc 1)]).books 1).1 = some 1 := by
  decide

end MinimalOS.Minimafs
