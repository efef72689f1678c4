import MinimalOS.Lib.Bitmap
import MinimalOS.Lib.ByteMem

/-!
# The physical page pool of `impl/pmm.c`

A bit for each page of the pool, set while the page is in use, in words of 64 bits. An allocation
scans for the first run of free pages that is long enough; it gives up if the stack pointer lies in
the run it found. Frees take any address: what is no page of the pool, or a free one, is refused.
The lock and the serial output are left out. A function that reaches `PANIC` stops with its text.
-/

namespace MinimalOS.Pmm

open ByteMem Bitmap

abbrev pageSize : ℕ := 0x1000
abbrev maxPages : ℕ := 16384

structure PagePool where
  pagePoolBase : ℕ
  pagePoolPages : ℕ
  pageBitmap : Words 64
  mem : Mem

namespace PagePool

def markUsed (p : PagePool) (idx : ℕ) : PagePool := { p with pageBitmap := set p.pageBitmap idx }

def markFree (p : PagePool) (idx : ℕ) : PagePool := { p with pageBitmap := clear p.pageBitmap idx }

def isFree (p : PagePool) (idx : ℕ) : Bool := isClear p.pageBitmap idx

def idxToPtr (p : PagePool) (idx : ℕ) : ℕ := (p.pagePoolBase + idx * pageSize) % 2 ^ 64

/-- The page at an address; `maxPages` for any other address. -/
def ptrToIdx (p : PagePool) (addr : ℕ) : ℕ :=
  if addr < p.pagePoolBase then maxPages
  else if p.pagePoolPages ≤ (addr - p.pagePoolBase) / pageSize then maxPages
  else if (addr - p.pagePoolBase) % pageSize ≠ 0 then maxPages
  else (addr - p.pagePoolBase) / pageSize

end PagePool

/-- `pmm_init` on memory `m`. -/
def pmmInit (m : Mem) (base size : ℕ) : Except String PagePool :=
  if base % pageSize ≠ 0 then .error "PMM base not 4 KiB aligned"
  else if maxPages < size / pageSize then .error "PMM region too large for bitmap"
  else .ok ⟨base, size / pageSize, fun _ => 0, m⟩

/-- The search of `pmm_try_alloc_pages_zeroed`: the start and the length of the run it ends in. -/
def findRun (p : PagePool) (count : ℕ) : ℕ × ℕ :=
  scan p.isFree count maxPages p.pagePoolPages 0 maxPages 0

/-- `pmm_try_alloc_pages_zeroed` with the stack pointer at `rsp`: the address, 0 for `NULL`. -/
def pmmTryAllocPagesZeroed (p : PagePool) (rsp count : ℕ) : ℕ × PagePool :=
  if count = 0 ∨ p.pagePoolPages < count then (0, p)
  else
    let (runStart, runLen) := findRun p count
    if runLen < count ∨ runStart = maxPages then (0, p)
    else
      let pageStart := (p.pagePoolBase + runStart * pageSize) % 2 ^ 64
      let pageEnd := (pageStart + count * pageSize) % 2 ^ 64
      if pageStart ≤ rsp ∧ rsp < pageEnd then (0, p)
      else
        let p := (List.range' runStart count).foldl PagePool.markUsed p
        let pages := p.idxToPtr runStart
        (pages, { p with mem := fill p.mem pages (count * pageSize) 0 })

def allocPageZeroed (p : PagePool) (rsp : ℕ) : Except String (ℕ × PagePool) :=
  let r := pmmTryAllocPagesZeroed p rsp 1
  if r.1 = 0 then .error "Out of physical pages in PMM" else .ok r

def allocPagesZeroed (p : PagePool) (rsp count : ℕ) : Except String (ℕ × PagePool) :=
  if count = 0 then .ok (0, p)
  else
    let r := pmmTryAllocPagesZeroed p rsp count
    if r.1 = 0 then .error "alloc_pages_zeroed: not enough contiguous pages" else .ok r

def freePage (p : PagePool) (page : ℕ) : PagePool :=
  if page = 0 then p
  else
    let idx := p.ptrToIdx page
    if idx = maxPages then p
    else if p.isFree idx then p
    else { p with mem := fill p.mem page pageSize 0xCC }.markFree idx

def freePages (p : PagePool) (base count : ℕ) : PagePool :=
  if base = 0 ∨ count = 0 then p
  else (List.range count).foldl (fun p i => freePage p ((base + i * pageSize) % 2 ^ 64)) p

def pmmFreePages (p : PagePool) : ℕ :=
  (List.range p.pagePoolPages).foldl (fun free i => if p.isFree i then free + 1 else free) 0

/-! ## One call -/

namespace PagePool

variable (p : PagePool) (idx j : ℕ)

@[simp]
theorem isFree_markFree : (p.markFree idx).isFree j = (p.isFree j || decide (j = idx)) :=
  isClear_clear (by norm_num) p.pageBitmap idx j

theorem foldl_markUsed (l : List ℕ) (p : PagePool) :
    l.foldl markUsed p = { p with pageBitmap := l.foldl set p.pageBitmap } := by
  induction l generalizing p with
  | nil => rfl
  | cons i l ih =>
    rw [List.foldl_cons, ih]
    rfl

/-- A pool in memory: it has an address other than 0 and does not wrap. -/
structure Ok (p : PagePool) : Prop where
  base_ne : p.pagePoolBase ≠ 0
  pages_le : p.pagePoolPages ≤ maxPages
  stop : p.pagePoolBase + p.pagePoolPages * pageSize < 2 ^ 64

theorem Ok.ptr {p : PagePool} (hp : p.Ok) {idx : ℕ} (hidx : idx ≤ p.pagePoolPages) :
    p.idxToPtr idx = p.pagePoolBase + idx * pageSize := by
  have hmul : idx * pageSize ≤ p.pagePoolPages * pageSize := Nat.mul_le_mul_right _ hidx
  unfold idxToPtr
  rw [Nat.mod_eq_of_lt (lt_of_le_of_lt (Nat.add_le_add_left hmul _) hp.stop)]

theorem ptrToIdx_lt {p : PagePool} {addr : ℕ} (h : p.ptrToIdx addr ≠ maxPages) :
    p.ptrToIdx addr < p.pagePoolPages := by
  unfold ptrToIdx at h ⊢
  split_ifs at h ⊢ with h₂ h₃
  · exact absurd rfl h
  · exact absurd rfl h
  · exact absurd rfl h
  · omega

theorem ptrToIdx_idxToPtr {p : PagePool} (hp : p.Ok) {idx : ℕ} (hidx : idx < p.pagePoolPages) :
    p.ptrToIdx (p.idxToPtr idx) = idx := by
  have hsub : p.pagePoolBase + idx * pageSize - p.pagePoolBase = idx * pageSize :=
    Nat.add_sub_cancel_left _ _
  have hdiv : idx * pageSize / pageSize = idx := Nat.mul_div_cancel _ (by norm_num)
  rw [hp.ptr hidx.le]
  unfold ptrToIdx
  rw [if_neg (by omega), hsub, hdiv, if_neg (by omega), if_neg (by simp)]

end PagePool

/-- The stack pointer lies in the run of `count` pages from `s` on. -/
def StackIn (p : PagePool) (rsp s count : ℕ) : Prop :=
  p.pagePoolBase + s * pageSize ≤ rsp ∧ rsp < p.pagePoolBase + (s + count) * pageSize

/-- The pool with the run of `count` pages from `s` on in use. -/
def taken (p : PagePool) (s count : ℕ) : PagePool :=
  { p with
    pageBitmap := (List.range' s count).foldl set p.pageBitmap
    mem := fill p.mem (p.pagePoolBase + s * pageSize) (count * pageSize) 0 }

/-- **An allocation** takes the lowest run of free pages, unless there is none or the stack pointer
lies in it. -/
theorem pmmTryAllocPagesZeroed_spec {p : PagePool} (hp : p.Ok) (rsp : ℕ) {count : ℕ} (hcount : 0 < count) :
    (∃ s, LowestRun p.isFree p.pagePoolPages count s ∧ ¬ StackIn p rsp s count ∧
        pmmTryAllocPagesZeroed p rsp count =
          (p.pagePoolBase + s * pageSize, taken p s count)) ∨
      ((∀ s, ¬ IsRun p.isFree p.pagePoolPages count s) ∨
        ∃ s, LowestRun p.isFree p.pagePoolPages count s ∧ StackIn p rsp s count) ∧
        pmmTryAllocPagesZeroed p rsp count = (0, p) := by
  unfold pmmTryAllocPagesZeroed
  by_cases hmany : p.pagePoolPages < count
  · refine .inr ⟨.inl fun s hs => ?_, if_pos (.inr hmany)⟩
    have := hs.stop
    omega
  rw [if_neg (by omega)]
  have hspec := scan_spec p.isFree maxPages p.pagePoolPages hcount
  unfold findRun
  rcases hspec with ⟨s, hs, hscan⟩ | ⟨hnone, hshort⟩
  · have hstop := hs.stop
    have hpages := hp.pages_le
    have hend := hp.stop
    have hmul : (s + count) * pageSize ≤ p.pagePoolPages * pageSize :=
      Nat.mul_le_mul_right _ hstop
    have hsum : (s + count) * pageSize = s * pageSize + count * pageSize := Nat.add_mul _ _ _
    have hptr : (p.pagePoolBase + s * pageSize) % 2 ^ 64 = p.pagePoolBase + s * pageSize :=
      hp.ptr (by omega)
    have hptr' : (p.pagePoolBase + s * pageSize + count * pageSize) % 2 ^ 64 =
        p.pagePoolBase + (s + count) * pageSize := by
      rw [Nat.mod_eq_of_lt (by omega), hsum, Nat.add_assoc]
    rw [hscan]
    dsimp only
    rw [if_neg (by omega), hptr, hptr']
    by_cases hstack : StackIn p rsp s count
    · exact .inr ⟨.inr ⟨s, hs, hstack⟩, if_pos hstack⟩
    · refine .inl ⟨s, hs, hstack, ?_⟩
      rw [if_neg (show ¬ (_ ∧ _) from hstack), PagePool.foldl_markUsed]
      have hidx : ({ p with pageBitmap := (List.range' s count).foldl set p.pageBitmap } :
          PagePool).idxToPtr s = p.pagePoolBase + s * pageSize := hptr
      rw [hidx]
      rfl
  · refine .inr ⟨.inl hnone, ?_⟩
    generalize scan p.isFree count maxPages p.pagePoolPages 0 maxPages 0 = r at *
    exact if_pos (.inl hshort)

theorem isFree_taken (p : PagePool) (s count j : ℕ) :
    (taken p s count).isFree j = (p.isFree j && decide (¬ (s ≤ j ∧ j < s + count))) := by
  have hmem : j ∉ List.range' s count ↔ ¬ (s ≤ j ∧ j < s + count) := by
    rw [List.mem_range'_1]
  show isClear ((List.range' s count).foldl set p.pageBitmap) j = _
  rw [isClear_foldl_set (by norm_num)]
  congr 1
  exact decide_eq_decide.mpr hmem

/-- **A free** makes the page of its address free, if it names one. -/
theorem freePage_spec (p : PagePool) (page : ℕ) :
    freePage p page = p ∧ (page = 0 ∨ p.ptrToIdx page = maxPages ∨
        p.isFree (p.ptrToIdx page) = true) ∨
      page ≠ 0 ∧ p.ptrToIdx page < p.pagePoolPages ∧ p.isFree (p.ptrToIdx page) = false ∧
        freePage p page =
          { p with mem := fill p.mem page pageSize 0xCC }.markFree (p.ptrToIdx page) := by
  unfold freePage
  by_cases h0 : page = 0
  · exact .inl ⟨if_pos h0, .inl h0⟩
  rw [if_neg h0]
  by_cases hidx : p.ptrToIdx page = maxPages
  · exact .inl ⟨if_pos hidx, .inr (.inl hidx)⟩
  rw [if_neg hidx]
  by_cases hfree : p.isFree (p.ptrToIdx page) = true
  · exact .inl ⟨if_pos hfree, .inr (.inr hfree)⟩
  · exact .inr ⟨h0, PagePool.ptrToIdx_lt hidx, by simpa using hfree, if_neg hfree⟩

theorem pmmFreePages_eq (p : PagePool) : pmmFreePages p =
    ((Finset.range p.pagePoolPages).filter fun i => p.isFree i = true).card :=
  foldl_count p.isFree p.pagePoolPages

end MinimalOS.Pmm
