import MinimalOS.Heap.Coalesce
import MinimalOS.Heap.Split

/-!
# The calls of the allocator

`Rep h bs`: the heap describes the row `bs` and its counters are those of the row. Each call
keeps `Rep`, for a row that differs from the old one as the call promises.
-/

namespace MinimalOS.Heap

open ByteMem LinkedChain Allocator List

attribute [local irreducible] Allocator.get readLE

/-- A well-formed heap with right counters. Each block costs a header, and the header of the
first block was never counted as free. -/
structure Rep (h : Allocator) (bs : List Block) : Prop where
  layout : Layout h bs
  allocated : h.totalAllocated = liveSize bs
  free : h.totalFree + headerSize = freeSize bs + headerSize * bs.length

/-! ## Sizes -/

theorem freeSize_append (bs cs : List Block) : freeSize (bs ++ cs) = freeSize bs + freeSize cs := by
  simp [freeSize, freeBlocks]

theorem liveSize_append (bs cs : List Block) : liveSize (bs ++ cs) = liveSize bs + liveSize cs := by
  simp [liveSize, liveBlocks]

theorem freeSize_cons (b : Block) (bs : List Block) :
    freeSize (b :: bs) = (if b.free then b.size else 0) + freeSize bs := by
  unfold freeSize freeBlocks
  cases hb : b.free <;> simp [hb]

theorem liveSize_cons (b : Block) (bs : List Block) :
    liveSize (b :: bs) = (if b.free then 0 else b.size) + liveSize bs := by
  unfold liveSize liveBlocks
  cases hb : b.free <;> simp [hb]

variable {bs : List Block} {h h' : Allocator} {b c : Block} {a n : ℕ}

theorem Tiles.sum_eq {s e : ℕ} (h : Tiles s bs e) :
    s + (freeSize bs + liveSize bs + headerSize * bs.length) = e := by
  induction bs generalizing s with
  | nil =>
    have hse : s = e := h
    simpa [freeSize, liveSize, freeBlocks, liveBlocks] using hse
  | cons b bs ih =>
    have := ih h.2
    have haddr := h.1
    rw [freeSize_cons, liveSize_cons, length_cons, Nat.mul_succ]
    unfold Block.stop at this
    split_ifs <;> omega

theorem Layout.sum_eq (hl : Layout h bs) :
    freeSize bs + liveSize bs + headerSize * bs.length = h.heapSize := by
  have := hl.tiles.sum_eq
  have := hl.end_eq
  omega

theorem mem_liveBlocks : b ∈ liveBlocks bs ↔ b ∈ bs ∧ b.free = false := by
  simp [liveBlocks]

/-! ## Writing into payloads -/

def Block.usable (b : Block) : Set ℕ := {i | b.addr + headerSize ≤ i ∧ i < b.stop - footerSize}

theorem Layout.usable_clear (hl : Layout h bs) (hb : b ∈ bs) (hc : c ∈ bs) :
    (∀ i, c.addr ≤ i → i < c.addr + headerSize → i ∉ b.usable) ∧
      ∀ i, c.stop - footerSize ≤ i → i < c.stop → i ∉ b.usable := by
  have hap : c.addr = b.addr ∧ c.stop = b.stop ∨ b.stop ≤ c.addr ∨ c.stop ≤ b.addr := by
    by_cases hbc : b.addr = c.addr
    · refine .inl ⟨hbc.symm, ?_⟩
      unfold Block.stop
      rw [← (hl.describes c hc).size, ← (hl.describes b hb).size, hbc]
    · exact .inr (hl.tiles.apart hb hc hbc)
  constructor
  all_goals
    rintro i hi hi' ⟨hu, hu'⟩
    unfold Block.stop at *
    omega

theorem Layout.of_usable (hl : Layout h bs) (hb : b ∈ bs) (ht : Touches b.usable h h')
    (hhead : h'.freeListHead = h.freeListHead) : Layout h' bs := by
  have hget : ∀ c ∈ bs, ∀ f, h'.get c.addr f = h.get c.addr f := fun c hc f =>
    ht.get_eq (hl.usable_clear hb hc).1 f
  refine hl.of_touches ht hl.tiles hl.shape ?_ ?_
  · intro c hc
    have hd := hl.describes c hc
    refine ⟨(hget c hc _).trans hd.size, (hget c hc _).trans hd.magic, (hget c hc _).trans hd.free,
      ?_⟩
    rw [ht.readLE_eq, hd.footer]
    intro i hi hi'
    refine (hl.usable_clear hb hc).2 i hi ?_
    have := (hl.shape c hc).1
    unfold Block.stop footerSize minBlockSize at *
    omega
  · refine isChain_congr hl.list ?_ ?_
    · intro u hu
      refine nextOf_congr hhead fun h0 => ?_
      have hmem := dropLast_subset _ hu
      rw [mem_cons, mem_append, mem_singleton] at hmem
      obtain ⟨c, hc, rfl⟩ : u ∈ addrs bs := freeAddrs_subset (by
        rcases hmem with h | h | h
        · exact absurd h h0
        · exact h
        · exact absurd h h0)
      exact hget c hc _
    · intro u hu h0
      rw [tail_cons, mem_append, mem_singleton] at hu
      obtain ⟨c, hc, rfl⟩ := freeAddrs_subset (hu.resolve_right h0)
      exact hget c hc _

theorem Stale.of_usable (hl : Layout h bs) (hb : b ∈ bs) (hlive : b.free = false)
    (ht : Touches b.usable h h') (ha : Stale h bs a) : Stale h' bs a := by
  rcases ha with ha | ⟨hm, c, hc, hcf, hlo, hhi⟩
  · exact .inl ha
  · refine .inr ⟨?_, c, hc, hcf, hlo, hhi⟩
    rw [ht.get_eq, hm]
    rintro i hi hi' ⟨hu, hu'⟩
    have hbc : b.addr ≠ c.addr := by
      intro heq
      have hbd := (hl.describes b hb).free
      have hcd := (hl.describes c hc).free
      rw [heq, hcd, hcf, hlive] at hbd
      simp at hbd
    have := hl.tiles.apart hb hc hbc
    omega

/-! ## Allocation -/

theorem payloadSize_eq (hn : n + 19 < 2 ^ 64) :
    minBlockSize ≤ payloadSize n ∧ payloadSize n % alignment = 0 ∧ n + footerSize ≤ payloadSize n := by
  unfold payloadSize align alignment minBlockSize footerSize
  dsimp only
  split_ifs
  · omega
  · omega

theorem firstFit_spec (total : ℕ) :
    ∀ (n : ℕ) (pre post : List Block), Layout h (pre ++ post) → (freeAddrs post).length ≤ n →
      (∀ b ∈ post, b.free = true → b.size < total) ∧
          firstFit h total n ((freeAddrs post).headD 0) = .ok 0 ∨
        ∃ b ∈ pre ++ post, b.free = true ∧ total ≤ b.size ∧
          firstFit h total n ((freeAddrs post).headD 0) = .ok b.addr := by
  intro n
  induction n with
  | zero =>
    intro pre post _ hn
    have hnil : freeAddrs post = [] := length_eq_zero_iff.mp (Nat.le_zero.mp hn)
    rw [hnil]
    exact .inl ⟨fun b hb hbf => absurd hbf (by simp [live_of_freeAddrs hnil b hb]), if_pos rfl⟩
  | succ n ih =>
    intro pre post hl hn
    by_cases hnil : freeAddrs post = []
    · rw [hnil]
      exact .inl ⟨fun b hb hbf => absurd hbf (by simp [live_of_freeAddrs hnil b hb]), if_pos rfl⟩
    · obtain ⟨mid, b, rest, rfl, hmid, hb, hfs⟩ := exists_first_free hnil
      rw [hfs, length_cons] at hn
      rw [← append_assoc] at hl ⊢
      have hbm : b ∈ pre ++ mid ++ b :: rest := by simp
      have hbd := hl.describes b hbm
      rw [hfs, headD_cons, firstFit, if_neg (hl.addr_ne hbm)]
      simp only [hl.validateBlockFast_eq hbm, Bool.not_true, Bool.false_eq_true, if_false]
      by_cases hfit : total ≤ b.size
      · rw [if_pos ⟨by rw [hbd.free, hb]; simp, by rw [hbd.size]; exact hfit⟩]
        exact .inr ⟨b, hbm, hb, hfit, rfl⟩
      · rw [if_neg fun hc => hfit (hbd.size ▸ hc.2)]
        rw [hl.next_eq hb]
        rw [append_cons] at hl
        have hrest := ih _ rest hl (by omega)
        rw [← append_cons] at hrest
        refine hrest.imp_left (And.imp_left fun hsmall d hd hdf => ?_)
        rcases mem_append.mp hd with hd | hd
        · rw [hmid d hd] at hdf
          cases hdf
        · rcases mem_cons.mp hd with rfl | hd
          · omega
          · exact hsmall d hd hdf

theorem usedBlock_addr (b : Block) (total : ℕ) : (usedBlock b total).addr = b.addr := by
  unfold usedBlock
  split_ifs <;> rfl

theorem usedBlock_free (b : Block) (total : ℕ) : (usedBlock b total).free = false := by
  unfold usedBlock
  split_ifs <;> rfl

theorem restRow_free (b : Block) (total : ℕ) : ∀ d ∈ restRow b total, d.free = true := by
  unfold restRow
  split_ifs <;> simp

theorem liveSize_used (pre post : List Block) (hb : b.free = true) (total : ℕ) :
    liveSize (pre ++ usedBlock b total :: (restRow b total ++ post)) =
      liveSize (pre ++ b :: post) + (usedBlock b total).size := by
  have hrest : liveSize (restRow b total) = 0 := by
    unfold restRow
    split_ifs <;> simp [liveSize, liveBlocks]
  rw [liveSize_append, liveSize_append, liveSize_cons, liveSize_cons, liveSize_append,
    usedBlock_free, hb]
  simp only [if_true, Bool.false_eq_true, if_false]
  omega

variable {total count elemSize : ℕ} {pre post : List Block}

/-- What is used is taken from the free bytes; a split turns a header's worth of them into a
header. -/
theorem freeSize_used (pre post : List Block) (hb : b.free = true) (hle : total ≤ b.size) :
    freeSize (pre ++ usedBlock b total :: (restRow b total ++ post)) +
        headerSize * (pre ++ usedBlock b total :: (restRow b total ++ post)).length +
        (usedBlock b total).size =
      freeSize (pre ++ b :: post) + headerSize * (pre ++ b :: post).length := by
  have hrest : freeSize (restRow b total) + headerSize * (restRow b total).length +
      (usedBlock b total).size = b.size := by
    unfold restRow usedBlock
    split_ifs with hn
    · simp only [freeSize, freeBlocks, filter_singleton, sum_singleton,
        length_singleton, cond_true, map_cons, map_nil]
      omega
    · simp [freeSize, freeBlocks]
  rw [freeSize_append, freeSize_append, freeSize_cons, freeSize_cons, freeSize_append,
    usedBlock_free, hb]
  simp only [if_true, Bool.false_eq_true, if_false, length_append, length_cons,
    Nat.mul_add]
  omega

theorem allocLocked_spec (hr : Rep h bs) (hmin : minBlockSize ≤ total)
    (halign : total % alignment = 0) :
    (∀ b ∈ bs, b.free = true → b.size < total) ∧ allocLocked h total = .ok (0, h) ∨
      ∃ h' bs' b, b ∈ bs ∧ b.free = true ∧ total ≤ b.size ∧
        allocLocked h total = .ok (b.addr + headerSize, h') ∧ Rep h' bs' ∧
        (∀ d, d ∈ liveBlocks bs' ↔ d = usedBlock b total ∨ d ∈ liveBlocks bs) ∧
        h'.heapSize = h.heapSize ∧
        ∀ i ∉ headerBytes (addrs bs) ∪ b.bytes, h'.mem i = h.mem i := by
  have hl := hr.layout
  have hfit := firstFit_spec total h.maxVisits [] bs hl hl.freeAddrs_le_maxVisits
  rw [← hl.list.head] at hfit
  unfold allocLocked
  rcases hfit with ⟨hsmall, hfit⟩ | ⟨b, hbm, hb, hle, hfit⟩
  · rw [hfit]
    exact .inl ⟨hsmall, rfl⟩
  · refine .inr ?_
    obtain ⟨pre, post, rfl⟩ := append_of_mem hbm
    obtain ⟨hl', ht⟩ := hl.splitAndUse hb hmin halign
    have hsize : (h.splitAndUse b.addr total).get b.addr .size = (usedBlock b total).size := by
      have := (hl'.describes (usedBlock b total) (by simp)).size
      rwa [usedBlock_addr] at this
    have hlive := liveSize_used pre post hb total
    have hcount := freeSize_used pre post hb hle
    have hsum := hl'.sum_eq
    have hend := hl.end_eq
    have hlt := hl.end_lt
    rw [ht.size] at hsum
    rw [hfit]
    dsimp only
    rw [if_neg (hl.addr_ne hbm), hsize, ht.allocated, ht.free, hr.allocated]
    have hfree := hr.free
    have hpos : 0 < (pre ++ usedBlock b total :: (restRow b total ++ post)).length := by simp
    have hfree' : (h.totalFree + 2 ^ 64 - (usedBlock b total).size) % 2 ^ 64 + headerSize =
        freeSize (pre ++ usedBlock b total :: (restRow b total ++ post)) +
          headerSize * (pre ++ usedBlock b total :: (restRow b total ++ post)).length := by
      unfold headerSize at *
      omega
    refine ⟨_, _, b, hbm, hb, hle, rfl, ⟨hl'.withCounters _ _ _, ?_, hfree'⟩, ?_, ht.size, ht.mem⟩
    · rw [hlive]
      exact Nat.mod_eq_of_lt (by omega)
    · intro d
      rw [mem_liveBlocks, mem_liveBlocks, mem_row, mem_row]
      constructor
      · rintro ⟨rfl | hd, hdf⟩
        · exact .inl rfl
        · rw [mem_append, mem_append] at hd
          rcases hd with hd | hd | hd
          · exact .inr ⟨.inr (mem_append_left _ hd), hdf⟩
          · rw [restRow_free b total d hd] at hdf
            cases hdf
          · exact .inr ⟨.inr (mem_append_right _ hd), hdf⟩
      · rintro (rfl | ⟨rfl | hd, hdf⟩)
        · exact ⟨.inl rfl, usedBlock_free b total⟩
        · rw [hb] at hdf
          cases hdf
        · exact ⟨.inr (mem_insert_mid (restRow b total) hd), hdf⟩

/-- A request for `n` bytes was granted: the heap has one more live block, large enough, and the
bytes of the live blocks are what they were. -/
structure Granted (h : Allocator) (bs : List Block) (n : ℕ) (h' : Allocator) (bs' : List Block)
    (c : Block) : Prop where
  rep : Rep h' bs'
  live : ∀ d, d ∈ liveBlocks bs' ↔ d = c ∨ d ∈ liveBlocks bs
  new : ∀ d ∈ liveBlocks bs, d.addr ≠ c.addr
  room : n + footerSize ≤ c.size
  heapSize : h'.heapSize = h.heapSize
  bytes : ∀ d ∈ liveBlocks bs, ∀ i ∈ d.usable, h'.mem i = h.mem i

theorem Layout.heapSize_add_lt (hl : Layout h bs) (hn : n ≤ h.heapSize) : n + 19 < 2 ^ 64 := by
  have hend := hl.tiles.aligned_end hl.start_aligned fun b hb => (hl.shape b hb).2
  have := hl.start_aligned
  have := hl.start_ne
  have := hl.end_eq
  have := hl.end_lt
  unfold alignment at *
  omega

theorem Layout.free_ne_live (hl : Layout h bs) {d : Block} (hb : b ∈ bs) (hbf : b.free = true)
    (hd : d ∈ liveBlocks bs) : d.addr ≠ b.addr := by
  intro heq
  obtain ⟨hdm, hdf⟩ := mem_liveBlocks.mp hd
  have hbd := (hl.describes b hb).free
  have hdd := (hl.describes d hdm).free
  rw [heq, hbd, hbf, hdf] at hdd
  simp at hdd

theorem allocUnzeroed_spec (hr : Rep h bs) (hn : n + 19 < 2 ^ 64) :
    allocUnzeroed h n = .ok (0, h) ∨ ∃ h' bs' c,
      allocUnzeroed h n = .ok (c.addr + headerSize, h') ∧ Granted h bs n h' bs' c := by
  have hl := hr.layout
  unfold allocUnzeroed
  split_ifs with h0
  · exact .inl rfl
  · obtain ⟨hmin, halign, hroom⟩ := payloadSize_eq hn
    rcases allocLocked_spec hr hmin halign with ⟨-, hrun⟩ | ⟨h', bs', b, hb, hbf, hle, hrun, hr',
      hlive, hsize, hmem⟩
    · exact .inl hrun
    · refine .inr ⟨h', bs', usedBlock b (payloadSize n), ?_, hr', hlive, ?_, ?_, hsize, ?_⟩
      · rw [hrun, usedBlock_addr]
      · rw [usedBlock_addr]
        exact fun d hd => hl.free_ne_live hb hbf hd
      · unfold usedBlock
        split_ifs
        · exact hroom
        · exact hroom.trans hle
      · intro d hd i hi
        obtain ⟨hdm, -⟩ := mem_liveBlocks.mp hd
        apply hmem
        rintro (hih | ⟨hib, hib'⟩)
        · refine hl.inside_notMem hdm hi.1 ?_ hih
          have := hi.2
          omega
        · have := hl.tiles.apart hdm hb (hl.free_ne_live hb hbf hd)
          have := hi.1
          have := hi.2
          omega

theorem Rep.of_usable (hr : Rep h bs) (hb : b ∈ bs) (ht : Touches b.usable h h')
    (hhead : h'.freeListHead = h.freeListHead) : Rep h' bs :=
  ⟨hr.layout.of_usable hb ht hhead, ht.allocated.trans hr.allocated, by rw [ht.free]; exact hr.free⟩

theorem Layout.usable_disjoint (hl : Layout h bs) (hb : b ∈ bs) (hc : c ∈ bs)
    (hne : b.addr ≠ c.addr) : ∀ i ∈ b.usable, i ∉ c.usable := by
  rintro i ⟨hi, hi'⟩ ⟨hj, hj'⟩
  have := hl.tiles.apart hb hc hne
  omega

theorem Granted.of_usable {h'' : Allocator} {bs' : List Block} (hg : Granted h bs n h' bs' c)
    (ht : Touches c.usable h' h'')
    (hhead : h''.freeListHead = h'.freeListHead) : Granted h bs n h'' bs' c := by
  have hcm := (mem_liveBlocks.mp ((hg.live c).mpr (.inl rfl))).1
  refine ⟨hg.rep.of_usable hcm ht hhead, hg.live, hg.new, hg.room, ht.size.trans hg.heapSize, ?_⟩
  intro d hd i hi
  have hdm := (mem_liveBlocks.mp ((hg.live d).mpr (.inr hd))).1
  rw [ht.mem i (hg.rep.layout.usable_disjoint hdm hcm (hg.new d hd) i hi)]
  exact hg.bytes d hd i hi

theorem Block.mem_usable (hb : footerSize ≤ b.size) {i : ℕ} :
    i ∈ b.usable ↔ b.addr + headerSize ≤ i ∧ i < b.addr + headerSize + (b.size - footerSize) := by
  show _ ∧ i < b.stop - footerSize ↔ _
  unfold Block.stop at *
  omega

theorem memsetWrapped_eq {p : ℕ} {c : UInt8} (hn : p + n ≤ 2 ^ 64) :
    h.memsetWrapped p c n = h.memset p c n := by
  have hmem : ∀ i, (i < 2 ^ 64 ∧ (i + 2 ^ 64 - p) % 2 ^ 64 < n) ↔ p ≤ i ∧ i < p + n := by
    omega
  unfold memsetWrapped Allocator.memset fill
  simp only [hmem]

theorem alloc_spec (hr : Rep h bs) (hn : n + 19 < 2 ^ 64) : alloc h n = .ok (0, h) ∨ ∃ h' bs' c,
      alloc h n = .ok (c.addr + headerSize, h') ∧ Granted h bs n h' bs' c ∧
        ∀ i ∈ c.usable, h'.mem i = 0 := by
  have hspec := allocUnzeroed_spec hr hn
  unfold allocUnzeroed at hspec
  unfold alloc
  split_ifs at hspec ⊢ with h0
  · exact .inl rfl
  · rcases hspec with hrun | ⟨h', bs', c, hrun, hg⟩
    · rw [hrun]
      exact .inl rfl
    · rw [hrun]
      have hc := (mem_liveBlocks.mp ((hg.live c).mpr (.inl rfl))).1
      have hsize := (hg.rep.layout.describes c hc).size
      have hmem : ∀ i, _ := fun i => c.mem_usable (i := i) ((Nat.le_add_left _ n).trans hg.room)
      refine .inr ⟨h'.memset (c.addr + headerSize) 0 (c.size - footerSize), bs', c, ?_, ?_, ?_⟩
      · have hroom := hg.room
        have hstop := hg.rep.layout.stop_le hc
        have hend := hg.rep.layout.end_lt
        have husable : (c.size + 2 ^ 64 - footerSize) % 2 ^ 64 = c.size - footerSize := by
          unfold Block.stop at *
          omega
        dsimp only
        rw [if_neg (by unfold headerSize; omega), Nat.add_sub_cancel, hsize, husable,
          memsetWrapped_eq (by unfold Block.stop at hstop; omega)]
      · refine hg.of_usable (touches_of_changed (changed_fill _ _ _ _) ?_) rfl
        exact fun i hi hi' => (hmem i).mpr ⟨hi, hi'⟩
      · exact fun i hi => if_pos ((hmem i).mp hi)

theorem allocArray_eq (h : Allocator) (hn : count * elemSize < 2 ^ 64) :
    allocArray h count elemSize = alloc h (count * elemSize) := by
  unfold allocArray
  split_ifs with h0 hover
  · have hz : count * elemSize = 0 := Nat.mul_eq_zero.mpr h0
    rw [hz]
    rfl
  · -- the product fits, so the quotient test cannot fail
    exfalso
    rw [not_or] at h0
    have hpos : 0 < count := Nat.pos_of_ne_zero h0.1
    rw [Nat.div_lt_iff_lt_mul hpos, Nat.mul_comm] at hover
    omega
  · rfl

theorem allocArray_overflow (h : Allocator) (hn : 2 ^ 64 ≤ count * elemSize) :
    allocArray h count elemSize = .ok (0, h) := by
  unfold allocArray
  split_ifs with h0 hover
  · rfl
  · rfl
  · exfalso
    rw [not_or] at h0
    rw [Nat.div_lt_iff_lt_mul (Nat.pos_of_ne_zero h0.1), Nat.mul_comm] at hover
    omega

/-! ## Freeing -/

theorem Stale.insert (hl : Layout h (pre ++ b :: post)) (hb : b.free = false)
    (ht : Touches (headerBytes (addrs (pre ++ b :: post))) h h') (ha : Stale h (pre ++ b :: post) a) :
    Stale h' (pre ++ { b with free := true } :: post) a := by
  have hother : ∀ c ∈ pre ++ b :: post, c.free = true →
      c ∈ pre ++ { b with free := true } :: post := by
    intro c hc hcf
    rcases mem_row.mp hc with rfl | hc
    · rw [hb] at hcf
      cases hcf
    · exact mem_row.mpr (.inr hc)
  rcases ha with ⟨c, hc, hcf, hca⟩ | ⟨hm, c, hc, hcf, hlo, hhi⟩
  · exact .inl ⟨c, hother c hc hcf, hcf, hca⟩
  · refine .inr ⟨?_, c, hother c hc hcf, hcf, hlo, hhi⟩
    rw [ht.get_eq, hm]
    exact fun i hi hi' => hl.inside_notMem hc (by omega) (by omega)

theorem freeMem_eq (hl : Layout h bs) (hb : b ∈ bs)
    (hlive : b.free = false) :
    freeMem h (b.addr + headerSize) =
      match ({ h.memset (b.addr + headerSize) 0xCC (b.size - footerSize) with
        totalAllocated := (h.totalAllocated + 2 ^ 64 - b.size) % 2 ^ 64
        totalFree := (h.totalFree + b.size) % 2 ^ 64 } : Allocator).insertFreeBlock b.addr with
      | .error e => .error e
      | .ok h => h.coalesce := by
  have hd := hl.describes b hb
  have hs := (hl.shape b hb).1
  have hstart := hl.addr_ge hb
  have hstop := hl.stop_le hb
  have hfoot : h.checkFooter b.addr = true := by
    unfold checkFooter blockFooter
    rw [hd.size]
    exact decide_eq_true hd.footer
  unfold freeMem
  rw [if_neg (by unfold headerSize; omega), if_neg (by
    unfold Block.stop minBlockSize at *
    omega)]
  simp only [Nat.add_sub_cancel, validateBlockFull_eq, hl.validateBlockFast_eq hb,
    Bool.false_eq_true, if_false, hd.free, hlive, ne_eq, hfoot, hd.size]
  rfl

theorem freeMem_live (hr : Rep h (pre ++ b :: post)) (hb : b.free = false) :
    ∃ h' bs', freeMem h (b.addr + headerSize) = .ok h' ∧
      bs' = mergePairs (pre ++ { b with free := true } :: post) ∧ Rep h' bs' ∧
      liveBlocks bs' = liveBlocks (pre ++ post) ∧
      (∀ a, Stale h (pre ++ b :: post) a → Stale h' bs' a) ∧ Stale h' bs' b.addr ∧
      h'.heapSize = h.heapSize ∧
      ∀ d ∈ liveBlocks (pre ++ post), ∀ i ∈ d.usable, h'.mem i = h.mem i := by
  have hl := hr.layout
  have hbm : b ∈ pre ++ b :: post := by simp
  have hs := (hl.shape b hbm).1
  have hmem : ∀ i, _ := fun i => b.mem_usable (i := i) (by
    unfold minBlockSize at hs
    unfold footerSize
    omega)
  -- the scrubbed heap, with its new counters
  have ht₁ : Touches b.usable h (h.memset (b.addr + headerSize) 0xCC (b.size - footerSize)) :=
    touches_of_changed (changed_fill _ _ _ _) fun i hi hi' => (hmem i).mpr ⟨hi, hi'⟩
  have hl₁ := hl.of_usable hbm ht₁ rfl
  have hst₁ : ∀ a, _ → _ := fun a ha => Stale.of_usable hl hbm hb ht₁ (a := a) ha
  rw [freeMem_eq hl hbm hb]
  generalize h.memset (b.addr + headerSize) 0xCC (b.size - footerSize) = h₁ at *
  have hl₂ := hl₁.withCounters ((h.totalAllocated + 2 ^ 64 - b.size) % 2 ^ 64)
    ((h.totalFree + b.size) % 2 ^ 64) h₁.peakUsage
  obtain ⟨h₃, hins, hl₃, ht₃⟩ := hl₂.insertFreeBlock hb
  obtain ⟨h₄, hco, hm⟩ := coalesce_merged hl₃
  generalize hbs' : mergePairs (pre ++ { b with free := true } :: post) = bs' at hm
  have hlive' : liveBlocks bs' = liveBlocks (pre ++ post) := by
    rw [hm.live]
    simp [liveBlocks]
  refine ⟨h₄, bs', ?_, rfl, ⟨hm.layout, ?_, ?_⟩, hlive', ?_, ?_, ?_, ?_⟩
  · rw [hins]
    exact hco
  · have hall := hr.allocated
    have hsum := hl.sum_eq
    have := hl.end_eq
    have := hl.end_lt
    rw [hm.touches.allocated, ht₃.allocated]
    unfold liveSize at *
    rw [hlive']
    show (h.totalAllocated + 2 ^ 64 - b.size) % 2 ^ 64 = liveSize (pre ++ post)
    have hsplit : liveSize (pre ++ b :: post) = liveSize (pre ++ post) + b.size := by
      rw [liveSize_append, liveSize_append, liveSize_cons, hb]
      simp only [Bool.false_eq_true, if_false]
      omega
    unfold liveSize at *
    omega
  · have hfree := hr.free
    have hsum := hl₃.sum_eq
    have := hl.end_eq
    have := hl.end_lt
    have hsize : h₃.heapSize = h.heapSize := ht₃.size.trans ht₁.size
    rw [hm.count, hm.touches.free, ht₃.free]
    show (h.totalFree + b.size) % 2 ^ 64 + headerSize = _
    have hsplit : freeSize (pre ++ { b with free := true } :: post) =
        freeSize (pre ++ b :: post) + b.size := by
      rw [freeSize_append, freeSize_append, freeSize_cons, freeSize_cons, hb]
      simp only [Bool.false_eq_true, if_false, if_true]
      omega
    simp only [length_append, length_cons] at *
    omega
  · intro a ha
    refine hm.stale a (Stale.insert hl₂ hb ht₃ ?_)
    have := hst₁ a ha
    unfold Stale at ⊢
    rw [get_withCounters]
    exact this
  · exact hm.stale _ (.inl ⟨_, mem_row.mpr (.inl rfl), rfl, rfl⟩)
  · exact hm.touches.size.trans (ht₃.size.trans ht₁.size)
  · intro d hd i hi
    obtain ⟨hdm, hdf⟩ := mem_liveBlocks.mp hd
    have hdm' : d ∈ pre ++ b :: post := mem_insert_mid [b] hdm
    have hlt : i < d.stop := lt_of_lt_of_le hi.2 (Nat.sub_le _ _)
    rw [hm.touches.mem i (hl₃.inside_notMem (mem_row.mpr (.inr hdm)) hi.1 hlt),
      ht₃.mem i (hl₂.inside_notMem hdm' hi.1 hlt)]
    exact ht₁.mem i (hl.usable_disjoint hdm' hbm (hl.tiles.addr_ne hdm) i hi)

theorem freeMem_stale (hl : Layout h bs)
    (ha : Stale h bs a) : freeMem h (a + headerSize) = .ok h := by
  unfold freeMem
  rw [if_neg (by unfold headerSize; omega)]
  simp only [Nat.add_sub_cancel]
  split_ifs with hout hval hfree hfoot
  · rfl
  · rfl
  · rfl
  all_goals
    exfalso
    rcases ha with ⟨b, hb, hbf, rfl⟩ | ⟨hm, -⟩
    · rw [(hl.describes b hb).free, hbf] at hfree
      simp at hfree
    · rw [validateBlockFull_eq] at hval
      unfold validateBlockFast at hval
      rw [hm] at hval
      simp at hval

/-! ## Resizing -/

/-- A live block `b` was moved to a block `d` with room for `n` bytes: `d` starts with the bytes
of `b`, which is freed, and the bytes of the other live blocks are what they were. -/
structure Moved (h : Allocator) (bs : List Block) (b : Block) (n : ℕ) (h' : Allocator)
    (bs' : List Block) (d : Block) : Prop where
  rep : Rep h' bs'
  live : ∀ e, e ∈ liveBlocks bs' ↔ e = d ∨ e ∈ liveBlocks bs ∧ e.addr ≠ b.addr
  new : ∀ e ∈ liveBlocks bs, e.addr ≠ d.addr
  room : n + footerSize ≤ d.size
  stale : Stale h' bs' b.addr
  copied : ∀ i < b.size - footerSize,
    h'.mem (d.addr + headerSize + i) = h.mem (b.addr + headerSize + i)
  bytes : ∀ e ∈ liveBlocks bs, e.addr ≠ b.addr → ∀ i ∈ e.usable, h'.mem i = h.mem i

theorem Granted.moved {h₁ : Allocator} {bs₁ : List Block} {d : Block} (hr : Rep h bs)
    (hg : Granted h bs n h₁ bs₁ d) (hb : b ∈ liveBlocks bs) (hlt : b.size - footerSize < n) :
    ∃ h' bs', freeMem (h₁.memcpy (d.addr + headerSize) (b.addr + headerSize)
        (b.size - footerSize)) (b.addr + headerSize) = .ok h' ∧ Moved h bs b n h' bs' d := by
  obtain ⟨hbm, hbf⟩ := mem_liveBlocks.mp hb
  have hdl := (hg.live d).mpr (.inl rfl)
  have hdm := (mem_liveBlocks.mp hdl).1
  have hbl₁ := (hg.live b).mpr (.inr hb)
  have hbm₁ := (mem_liveBlocks.mp hbl₁).1
  have hroom := hg.room
  have hbs := (hr.layout.shape b hbm).1
  have hbd : b.addr ≠ d.addr := hg.new b hb
  have hdu : ∀ i, i < b.size - footerSize → d.addr + headerSize + i ∈ d.usable := fun i hi =>
    (d.mem_usable ((Nat.le_add_left _ n).trans hroom)).mpr ⟨by omega, by omega⟩
  have hbu : ∀ i, i < b.size - footerSize → b.addr + headerSize + i ∈ b.usable := fun i hi =>
    (b.mem_usable (by unfold minBlockSize footerSize at *; omega)).mpr ⟨by omega, by omega⟩
  -- the copy stays inside the new block
  have ht : Touches d.usable h₁ (h₁.memcpy (d.addr + headerSize) (b.addr + headerSize)
      (b.size - footerSize)) := by
    refine touches_of_changed (changed_copy _ _ _ _) fun i hi hi' => ?_
    obtain ⟨j, rfl⟩ := Nat.exists_eq_add_of_le hi
    exact hdu j (by omega)
  have hcopy : ∀ i < b.size - footerSize, (h₁.memcpy (d.addr + headerSize) (b.addr + headerSize)
      (b.size - footerSize)).mem (d.addr + headerSize + i) = h₁.mem (b.addr + headerSize + i) := by
    intro i hi
    show (if _ then _ else _) = _
    rw [if_pos ⟨by omega, by omega⟩]
    congr 1
    omega
  have hr₂ := hg.rep.of_usable hdm ht rfl
  generalize h₁.memcpy (d.addr + headerSize) (b.addr + headerSize) (b.size - footerSize) = h₂ at *
  obtain ⟨pre, post, rfl⟩ := append_of_mem hbm₁
  obtain ⟨h₃, bs₃, hrun, -, hr₃, hlive, -, hself, -, hbytes⟩ := freeMem_live hr₂ hbf
  have hrest : ∀ e, e ∈ liveBlocks (pre ++ post) ↔
      e ∈ liveBlocks (pre ++ b :: post) ∧ e.addr ≠ b.addr := by
    intro e
    rw [mem_liveBlocks, mem_liveBlocks, mem_row]
    constructor
    · rintro ⟨he, hef⟩
      exact ⟨⟨.inr he, hef⟩, hr₂.layout.tiles.addr_ne he⟩
    · rintro ⟨⟨rfl | he, hef⟩, hne⟩
      · exact absurd rfl hne
      · exact ⟨he, hef⟩
  refine ⟨h₃, bs₃, hrun, hr₃, fun e => ?_, hg.new, hroom, hself, fun i hi => ?_,
    fun e he hne i hi => ?_⟩
  · rw [hlive, hrest, hg.live]
    constructor
    · rintro ⟨rfl | he, hne⟩
      · exact .inl rfl
      · exact .inr ⟨he, hne⟩
    · rintro (rfl | ⟨he, hne⟩)
      · exact ⟨.inl rfl, hbd.symm⟩
      · exact ⟨.inr he, hne⟩
  · rw [hbytes d ((hrest d).mpr ⟨hdl, hbd.symm⟩) _ (hdu i hi), hcopy i hi,
      hg.bytes b hb _ (hbu i hi)]
  · have hel := (hg.live e).mpr (.inr he)
    rw [hbytes e ((hrest e).mpr ⟨hel, hne⟩) i hi,
      ht.mem i (hg.rep.layout.usable_disjoint (mem_liveBlocks.mp hel).1 hdm (hg.new e he) i hi),
      hg.bytes e he i hi]

/-- `alloc_resize` of a live block: it fits where it is, nothing is free for it, or it is moved. -/
theorem allocResize_spec (hr : Rep h bs) (hb : b ∈ liveBlocks bs) (hn0 : n ≠ 0)
    (hn : n + 19 < 2 ^ 64) : (n ≤ b.size - footerSize ∧
        allocResize h (b.addr + headerSize) n = .ok (b.addr + headerSize, h)) ∨
      allocResize h (b.addr + headerSize) n = .ok (0, h) ∨
      ∃ h' bs' d, b.size - footerSize < n ∧
        allocResize h (b.addr + headerSize) n = .ok (d.addr + headerSize, h') ∧
        Moved h bs b n h' bs' d := by
  have hbm := (mem_liveBlocks.mp hb).1
  have hl := hr.layout
  unfold allocResize
  rw [if_neg hn0]
  simp only [Nat.add_sub_cancel, validateBlockFull_eq, hl.validateBlockFast_eq hbm, Bool.not_true,
    Bool.false_eq_true, if_false, (hl.describes b hbm).size]
  by_cases hfit : n ≤ b.size - footerSize
  · rw [if_pos hfit]
    exact .inl ⟨hfit, rfl⟩
  · rw [if_neg hfit]
    refine .inr ?_
    rcases alloc_spec hr hn with hrun | ⟨h₁, bs₁, d, hrun, hg, -⟩
    · rw [hrun]
      exact .inl rfl
    · obtain ⟨h', bs', hfree, hm⟩ := hg.moved hr hb (by omega)
      refine .inr ⟨h', bs', d, by omega, ?_, hm⟩
      rw [hrun]
      dsimp only
      rw [hfree]
      rfl

end MinimalOS.Heap
