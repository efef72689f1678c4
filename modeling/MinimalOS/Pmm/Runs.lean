import MinimalOS.Pmm.Pool

/-!
# Runs of the page pool

Any sequence of allocations and frees, with the stack pointer anywhere and frees of any address and
count. Beside the pool a run keeps which pages each allocation was given and has not lost to a free
since. They stay apart, they are exactly the pages in use, and so what the pool counts as free is
free.
-/

namespace MinimalOS.Pmm

open ByteMem Bitmap Finset

/-- The pool, and for each allocation the pages of it that were not freed. -/
structure Holders where
  pool : PagePool
  live : List (Finset ℕ)

inductive Op where
  | tryAllocPages (rsp count : ℕ)
  | allocPage (rsp : ℕ)
  | allocPages (rsp count : ℕ)
  | freePage (page : ℕ)
  | freePages (base count : ℕ)

namespace Holders

def start (p : PagePool) : Holders := ⟨p, []⟩

/-- An address comes back from an allocation of `count` pages. -/
def granted (c : Holders) (count : ℕ) (r : ℕ × PagePool) : Holders :=
  if r.1 = 0 then { c with pool := r.2 }
  else ⟨r.2, Finset.Ico (c.pool.ptrToIdx r.1) (c.pool.ptrToIdx r.1 + count) :: c.live⟩

/-- The page at an address, if it is one, belongs to nobody any more. -/
def released (c : Holders) (page : ℕ) : List (Finset ℕ) :=
  if page = 0 ∨ c.pool.ptrToIdx page = maxPages then c.live
  else c.live.map (·.erase (c.pool.ptrToIdx page))

def free (c : Holders) (page : ℕ) : Holders := ⟨freePage c.pool page, c.released page⟩

def step (c : Holders) : Op → Except String Holders
  | .tryAllocPages rsp count => .ok (c.granted count (pmmTryAllocPagesZeroed c.pool rsp count))
  | .allocPage rsp => (allocPageZeroed c.pool rsp).map (c.granted 1)
  | .allocPages rsp count => (allocPagesZeroed c.pool rsp count).map (c.granted count)
  | .freePage page => .ok (c.free page)
  | .freePages base count =>
    .ok ⟨Pmm.freePages c.pool base count,
      if base = 0 ∨ count = 0 then c.live
      else ((List.range count).foldl
        (fun c i => c.free ((base + i * pageSize) % 2 ^ 64)) c).live⟩

def run : Holders → List Op → Except String Holders
  | c, [] => .ok c
  | c, op :: ops =>
    match c.step op with
    | .error e => .error e
    | .ok c' => run c' ops

/-! ## The invariant -/

structure Inv (c : Holders) : Prop where
  ok : c.pool.Ok
  disjoint : c.live.Pairwise Disjoint
  inside : ∀ s ∈ c.live, ∀ i ∈ s, i < c.pool.pagePoolPages
  used : ∀ i, c.pool.isFree i = false ↔ ∃ s ∈ c.live, i ∈ s

variable {c c' : Holders}

theorem Inv.granted (hi : c.Inv) (rsp count : ℕ) :
    (c.granted count (pmmTryAllocPagesZeroed c.pool rsp count)).Inv := by
  rcases Nat.eq_zero_or_pos count with rfl | hcount
  · have hnull : pmmTryAllocPagesZeroed c.pool rsp 0 = (0, c.pool) := if_pos (.inl rfl)
    exact hi
  rcases pmmTryAllocPagesZeroed_spec hi.ok rsp hcount with ⟨s, hs, -, hrun⟩ | ⟨-, hrun⟩
  · have hstop := hs.stop
    have hidx : c.pool.ptrToIdx (c.pool.pagePoolBase + s * pageSize) = s := by
      rw [← hi.ok.ptr (by omega)]
      exact PagePool.ptrToIdx_idxToPtr hi.ok (by omega)
    have hne : c.pool.pagePoolBase + s * pageSize ≠ 0 := by
      have := hi.ok.base_ne
      omega
    have hgranted : c.granted count (pmmTryAllocPagesZeroed c.pool rsp count) =
        ⟨taken c.pool s count, Finset.Ico s (s + count) :: c.live⟩ := by
      rw [hrun]
      unfold Holders.granted
      rw [if_neg hne, hidx]
    rw [hgranted]
    refine ⟨⟨hi.ok.base_ne, hi.ok.pages_le, hi.ok.stop⟩, ?_, ?_, fun i => ?_⟩
    · refine List.pairwise_cons.mpr ⟨fun l hl => ?_, hi.disjoint⟩
      rw [disjoint_left]
      intro i his hil
      obtain ⟨hlo, hhi⟩ := mem_Ico.mp his
      have hfree := hs.all i hlo hhi
      rw [(hi.used i).mpr ⟨l, hl, hil⟩] at hfree
      cases hfree
    · intro l hl i hil
      rcases List.mem_cons.mp hl with rfl | hl
      · have := (mem_Ico.mp hil).2
        show i < c.pool.pagePoolPages
        omega
      · exact hi.inside l hl i hil
    · rw [isFree_taken, List.exists_mem_cons_iff, ← hi.used i]
      cases c.pool.isFree i <;> simp
  · have hnull : c.granted count (pmmTryAllocPagesZeroed c.pool rsp count) = c := by
      rw [hrun]
      exact if_pos rfl
    rw [hnull]
    exact hi

theorem Inv.erase (hi : c.Inv) {idx : ℕ} {m : Mem} :
    Inv ⟨{ c.pool with mem := m }.markFree idx, c.live.map (·.erase idx)⟩ := by
  refine ⟨⟨hi.ok.base_ne, hi.ok.pages_le, hi.ok.stop⟩, ?_, ?_, fun i => ?_⟩
  · rw [List.pairwise_map]
    exact hi.disjoint.imp fun hd =>
      hd.mono (erase_subset _ _) (erase_subset _ _)
  · intro s hs i his
    obtain ⟨l, hl, rfl⟩ := List.mem_map.mp hs
    exact hi.inside l hl i (mem_of_mem_erase his)
  · have hfree : ({ c.pool with mem := m }.markFree idx).isFree i = false ↔
        c.pool.isFree i = false ∧ i ≠ idx := by
      rw [PagePool.isFree_markFree, Bool.or_eq_false_iff, decide_eq_false_iff_not]
      rfl
    show ({ c.pool with mem := m }.markFree idx).isFree i = false ↔ _
    rw [hfree, hi.used]
    constructor
    · rintro ⟨⟨s, hs, his⟩, hne⟩
      exact ⟨_, List.mem_map_of_mem hs, mem_erase.mpr ⟨hne, his⟩⟩
    · rintro ⟨s, hs, his⟩
      obtain ⟨l, hl, rfl⟩ := List.mem_map.mp hs
      obtain ⟨hne, hil⟩ := mem_erase.mp his
      exact ⟨⟨l, hl, hil⟩, hne⟩

theorem Inv.free (hi : c.Inv) (page : ℕ) : (c.free page).Inv := by
  unfold Holders.free Holders.released
  rcases freePage_spec c.pool page with ⟨hsame, hwhy⟩ | ⟨h0, hidx, -, hrun⟩
  · rw [hsame]
    split_ifs with hskip
    · exact hi
    · -- the page is free already, and nobody has it
      have hfree := hwhy.resolve_left fun h => hskip (.inl h)
      have hfree := hfree.resolve_left fun h => hskip (.inr h)
      have herase : c.live.map (·.erase (c.pool.ptrToIdx page)) = c.live := by
        conv_rhs => rw [← List.map_id c.live]
        refine List.map_congr_left fun s hs => erase_eq_of_notMem fun hmem => ?_
        rw [(hi.used _).mpr ⟨s, hs, hmem⟩] at hfree
        cases hfree
      rw [herase]
      exact hi
  · have hmax : c.pool.ptrToIdx page ≠ maxPages := by
      have := hi.ok.pages_le
      omega
    rw [if_neg (not_or.mpr ⟨h0, hmax⟩), hrun]
    exact hi.erase

theorem Inv.foldl_free (hi : c.Inv) (page : ℕ → ℕ) (l : List ℕ) :
    (l.foldl (fun c i => c.free (page i)) c).Inv ∧
      (l.foldl (fun c i => c.free (page i)) c).pool =
        l.foldl (fun p i => Pmm.freePage p (page i)) c.pool := by
  induction l generalizing c with
  | nil => exact ⟨hi, rfl⟩
  | cons i l ih => exact ih (hi.free (page i))

theorem Inv.step (hi : c.Inv) {op : Op} (hstep : c.step op = .ok c') : c'.Inv := by
  cases op with
  | tryAllocPages rsp count =>
    cases hstep
    exact hi.granted rsp count
  | allocPage rsp =>
    unfold Holders.step allocPageZeroed at hstep
    dsimp only at hstep
    split_ifs at hstep
    · cases hstep
    · cases hstep
      exact hi.granted rsp 1
  | allocPages rsp count =>
    unfold Holders.step allocPagesZeroed at hstep
    dsimp only at hstep
    split_ifs at hstep
    · cases hstep
      exact hi
    · cases hstep
    · cases hstep
      exact hi.granted rsp count
  | freePage page =>
    cases hstep
    exact hi.free page
  | freePages base count =>
    cases hstep
    unfold Pmm.freePages
    split_ifs
    · exact hi
    · obtain ⟨hi', hpool⟩ := hi.foldl_free (fun i => (base + i * pageSize) % 2 ^ 64)
        (List.range count)
      rw [← hpool]
      exact hi'

theorem Inv.run (hi : c.Inv) {ops : List Op} (hrun : c.run ops = .ok c') : c'.Inv := by
  induction ops generalizing c with
  | nil =>
    cases hrun
    exact hi
  | cons op ops ih =>
    rw [Holders.run] at hrun
    cases hstep : c.step op with
    | error e =>
      rw [hstep] at hrun
      cases hrun
    | ok c₁ =>
      rw [hstep] at hrun
      exact ih (hi.step hstep) hrun

theorem inv_start {m : Mem} {base size : ℕ} {p : PagePool} (hbase : base ≠ 0)
    (hstop : base + size < 2 ^ 64) (hinit : pmmInit m base size = .ok p) : (start p).Inv := by
  unfold pmmInit at hinit
  split_ifs at hinit with halign hlarge
  cases hinit
  have hmul : size / pageSize * pageSize ≤ size := Nat.div_mul_le_self _ _
  refine ⟨⟨hbase, not_lt.mp hlarge, ?_⟩, .nil, by simp [start], fun i => ?_⟩
  · show base + size / pageSize * pageSize < 2 ^ 64
    omega
  · have hfree : isClear (fun _ => 0 : Words 64) i = true := by
      rw [isClear_eq (by norm_num)]
      simp
    show isClear (fun _ => 0 : Words 64) i = false ↔ _
    rw [hfree]
    simp [start]

end Holders

/-! ## What a run guarantees -/

/-- The pool is in order: the pages of different allocations are apart and inside the pool, they are
the pages whose bit is set, and the free count is the number of clear bits. -/
structure PoolOk (c : Holders) : Prop where
  disjoint : c.live.Pairwise Disjoint
  inside : ∀ s ∈ c.live, ∀ i ∈ s, i < c.pool.pagePoolPages
  used : ∀ i, (c.pool.pageBitmap (i / 64)).getLsbD (i % 64) = true ↔ ∃ s ∈ c.live, i ∈ s
  count : pmmFreePages c.pool = ((Finset.range c.pool.pagePoolPages).filter fun i =>
    (c.pool.pageBitmap (i / 64)).getLsbD (i % 64) = false).card
  sum : pmmFreePages c.pool + (c.live.map Finset.card).sum = c.pool.pagePoolPages

/-- What an allocation of `count` pages returns: the lowest run of free pages, or `NULL` if there is
none or the stack pointer lies in it. -/
def Returned (p : PagePool) (rsp count q : ℕ) : Prop :=
  (∃ s, LowestRun p.isFree p.pagePoolPages count s ∧ ¬ StackIn p rsp s count ∧
      q = p.pagePoolBase + s * pageSize ∧ q ≠ 0) ∨
    ((∀ s, ¬ IsRun p.isFree p.pagePoolPages count s) ∨
      ∃ s, LowestRun p.isFree p.pagePoolPages count s ∧ StackIn p rsp s count) ∧ q = 0

theorem card_of_pairwise {l : List (Finset ℕ)} (hd : l.Pairwise Disjoint) {u : Finset ℕ}
    (hu : ∀ i, i ∈ u ↔ ∃ s ∈ l, i ∈ s) : u.card = (l.map Finset.card).sum := by
  induction l generalizing u with
  | nil =>
    have hempty : u = ∅ := eq_empty_of_forall_notMem fun i hi => by simpa using (hu i).mp hi
    rw [hempty]
    rfl
  | cons s l ih =>
    obtain ⟨hs, hl⟩ := List.pairwise_cons.mp hd
    have hsub : s ⊆ u := fun i hi => (hu i).mpr ⟨s, List.mem_cons_self, hi⟩
    have hrest : ∀ i, i ∈ u \ s ↔ ∃ t ∈ l, i ∈ t := by
      intro i
      rw [mem_sdiff, hu, List.exists_mem_cons_iff]
      constructor
      · rintro ⟨his | ht, hns⟩
        · exact absurd his hns
        · exact ht
      · rintro ⟨t, ht, hit⟩
        exact ⟨.inr ⟨t, ht, hit⟩, fun his => disjoint_left.mp (hs t ht) his hit⟩
    rw [List.map_cons, List.sum_cons, ← ih hl hrest, card_sdiff_of_subset hsub]
    have := card_le_card hsub
    omega

theorem Holders.Inv.poolOk {c : Holders} (hi : c.Inv) : PoolOk c := by
  have hbit : ∀ i, c.pool.isFree i = !(c.pool.pageBitmap (i / 64)).getLsbD (i % 64) :=
    fun i => isClear_eq (by norm_num) c.pool.pageBitmap i
  refine ⟨hi.disjoint, hi.inside, fun i => ?_, ?_, ?_⟩
  · rw [← hi.used, hbit, Bool.not_eq_false']
  · rw [pmmFreePages_eq]
    congr 1
    refine filter_congr fun i _ => ?_
    rw [hbit, Bool.not_eq_true']
  · have hlive : ∀ i, i ∈ (Finset.range c.pool.pagePoolPages).filter
        (fun i => ¬ c.pool.isFree i = true) ↔ ∃ s ∈ c.live, i ∈ s := by
      intro i
      rw [mem_filter, mem_range, Bool.not_eq_true, hi.used]
      exact and_iff_right_of_imp fun ⟨s, hs, his⟩ => hi.inside s hs i his
    rw [pmmFreePages_eq, ← card_of_pairwise hi.disjoint hlive,
      card_filter_add_card_filter_not, card_range]

/-- **The page pool over every run.** After any sequence of allocations and frees the pool is in
order, and an allocation returns the lowest run of free pages unless the stack is in it. -/
theorem poolOk_runs (m : Mem) (base size : ℕ) {p : PagePool} (hbase : base ≠ 0)
    (hstop : base + size < 2 ^ 64) (hinit : pmmInit m base size = .ok p) (ops : List Op)
    {c : Holders} (hrun : (Holders.start p).run ops = .ok c) :
    PoolOk c ∧ ∀ rsp count, 0 < count →
      Returned c.pool rsp count (pmmTryAllocPagesZeroed c.pool rsp count).1 := by
  have hi := (Holders.inv_start hbase hstop hinit).run hrun
  refine ⟨hi.poolOk, fun rsp count hcount => ?_⟩
  rcases pmmTryAllocPagesZeroed_spec hi.ok rsp hcount with ⟨s, hs, hstack, hq⟩ | ⟨hwhy, hq⟩
  · rw [hq]
    have := hi.ok.base_ne
    exact .inl ⟨s, hs, hstack, rfl, by omega⟩
  · rw [hq]
    exact .inr ⟨hwhy, rfl⟩

/-- Four pages at 0x10000, of which two were taken and the first one of them freed. -/
theorem poolOk_four_pages : ∃ p c, pmmInit (fun _ => 0) 0x10000 0x4000 = .ok p ∧
    (Holders.start p).run [.tryAllocPages 0 2, .freePage 0x10000] = .ok c ∧ PoolOk c ∧
    Returned c.pool 0 2 (pmmTryAllocPagesZeroed c.pool 0 2).1 := by
  refine ⟨_, _, rfl, rfl, ?_⟩
  have h := poolOk_runs (fun _ => 0) 0x10000 0x4000 (by norm_num) (by norm_num) rfl
    [.tryAllocPages 0 2, .freePage 0x10000] rfl
  exact ⟨h.1, h.2 0 2 (by norm_num)⟩

/-- With the stack pointer in the first page nothing is returned, though three pages behind it are
free. -/
theorem alloc_refuses_stack_page :
    (pmmInit (fun _ => 0) 0x10000 0x4000).map (fun p =>
      ((pmmTryAllocPagesZeroed p 0x10800 1).1, [0, 1, 2, 3].map p.isFree)) =
      .ok (0, [true, true, true, true]) := by
  decide +kernel

end MinimalOS.Pmm
