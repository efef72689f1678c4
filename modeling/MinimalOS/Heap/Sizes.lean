import MinimalOS.Heap.Resize

/-!
# Sizes up to 2⁶⁴

Every size passes through sums in 64 bits: the footer and the rounding of `payload_size`, and for
`kmalloc_aligned` the alignment and a pointer on top. `alloc_array` checks its product; nobody checks
the sums. A size for which one of them wraps is served with a block that is too small, whenever any
block is free.
-/

namespace MinimalOS.Heap

open ByteMem LinkedChain Allocator

attribute [local irreducible] Allocator.get readLE

inductive Request where
  | alloc (size : ℕ)
  | allocArray (count elemSize : ℕ)
  | allocResize (newSize : ℕ)
  | kmallocAligned (size alignment : ℕ)

/-- The alignment `kmalloc_aligned` works with. -/
def alignmentFor (alignment : ℕ) : ℕ :=
  if alignment < Heap.alignment then Heap.alignment else alignment

/-- What `kmalloc_aligned` asks for, before it is cut to 64 bits. -/
def alignedTotal (size alignment : ℕ) : ℕ := size + alignmentFor alignment + 8

/-- The `n` bytes from `q` on lie in the payload of the block of `ptr`. -/
def Allocator.Holds (h : Allocator) (ptr q n : ℕ) : Prop :=
  ptr ≤ q ∧ q + n + footerSize ≤ ptr + h.get (ptr - headerSize) .size

namespace Request

def Wide : Request → Prop
  | .alloc size => size < 2 ^ 64
  | .allocArray count elemSize => count < 2 ^ 64 ∧ elemSize < 2 ^ 64
  | .allocResize newSize => newSize < 2 ^ 64
  | .kmallocAligned size alignment => size < 2 ^ 64 ∧ alignment < 2 ^ 64

/-- A pointer that comes back has the bytes asked for. `alloc_resize` may be called with `NULL` or
a pointer held; the block of `kmalloc_aligned` is the one it got from `alloc_unzeroed`. -/
def Served (c : Client) : Request → Prop
  | .alloc size => ∀ q h', Heap.alloc c.heap size = .ok (q, h') → q ≠ 0 → h'.Holds q q size
  | .allocArray count elemSize => ∀ q h', Heap.allocArray c.heap count elemSize = .ok (q, h') →
      q ≠ 0 → h'.Holds q q (count * elemSize)
  | .allocResize newSize => ∀ ptr, ptr = 0 ∨ ptr ∈ c.live → ∀ q h',
      Heap.allocResize c.heap ptr newSize = .ok (q, h') → q ≠ 0 → h'.Holds q q newSize
  | .kmallocAligned size alignment => ∀ q h',
      Heap.kmallocAligned c.heap size alignment = .ok (q, h') → q ≠ 0 →
      ∃ raw h₁, allocUnzeroed c.heap (alignedTotal size alignment % 2 ^ 64) = .ok (raw, h₁) ∧
        h₁.Holds raw q size

/-- No sum on the way wraps, or the request is refused anyway. -/
def NoWrap : Request → Prop
  | .alloc size => size + 19 < 2 ^ 64
  | .allocArray count elemSize => count * elemSize + 19 < 2 ^ 64 ∨ 2 ^ 64 ≤ count * elemSize
  | .allocResize newSize => newSize + 19 < 2 ^ 64
  | .kmallocAligned size alignment => size = 0 ∨ isPow2 (alignmentFor alignment) = false ∨
      alignedTotal size alignment + 19 < 2 ^ 64 ∨ alignedTotal size alignment = 2 ^ 64

end Request

/-! ## Sizes that do not wrap -/

variable {h : Allocator} {bs : List Block} {n size alignment : ℕ}

variable {h' : Allocator} {d : Block}

theorem Granted.holds {bs' : List Block} (hg : Granted h bs n h' bs' d) :
    h'.Holds (d.addr + headerSize) (d.addr + headerSize) n := by
  have hd := (mem_liveBlocks.mp ((hg.live d).mpr (.inl rfl))).1
  have hroom := hg.room
  refine ⟨le_rfl, ?_⟩
  rw [Nat.add_sub_cancel, (hg.rep.layout.describes d hd).size]
  omega

theorem holds_of_request {r : Except Stop (ℕ × Allocator)}
    (hr : r = .ok (0, h) ∨ ∃ h' bs' d, r = .ok (d.addr + headerSize, h') ∧ Granted h bs n h' bs' d)
    {q : ℕ} (hrun : r = .ok (q, h')) (hq : q ≠ 0) : h'.Holds q q n := by
  rcases hr with rfl | ⟨h₁, bs', d, rfl, hg⟩
  · cases hrun
    exact absurd rfl hq
  · cases hrun
    exact hg.holds

theorem alignUp_eq {v a : ℕ} (ha : 0 < a) (hv : v + a ≤ 2 ^ 64) :
    v ≤ alignUp v a ∧ alignUp v a < v + a := by
  unfold alignUp
  rw [Nat.mod_eq_of_lt (by omega)]
  have hdiv := Nat.div_add_mod (v + a - 1) a
  have hmod := Nat.mod_lt (v + a - 1) ha
  rw [Nat.mul_comm] at hdiv
  omega

theorem alignmentFor_pos (alignment : ℕ) : 16 ≤ alignmentFor alignment := by
  unfold alignmentFor Heap.alignment
  split_ifs <;> omega

/-- The last part of `kmalloc_aligned`: the pointer before the aligned one, and the zeros. -/
def Allocator.place (h : Allocator) (raw q size : ℕ) : Allocator :=
  { h with mem := writeLE h.mem 8 ((q + 2 ^ 64 - 8) % 2 ^ 64) raw }.memsetWrapped q 0 size

theorem kmallocAligned_eq (h : Allocator) (size alignment : ℕ) :
    kmallocAligned h size alignment =
      if size = 0 then .ok (0, h)
      else if !isPow2 (alignmentFor alignment) then .ok (0, h)
      else
        match allocUnzeroed h (alignedTotal size alignment % 2 ^ 64) with
        | .error e => .error e
        | .ok (raw, h) =>
          if raw = 0 then .ok (0, h)
          else .ok (alignUp ((raw + 8) % 2 ^ 64) (alignmentFor alignment),
            h.place raw (alignUp ((raw + 8) % 2 ^ 64) (alignmentFor alignment)) size) := rfl

/-- `kmalloc_aligned` fails and changes nothing, or places the pointer in a block with room for
it. -/
theorem kmallocAligned_spec (hr : Rep h bs)
    (hno : (Request.kmallocAligned size alignment).NoWrap) :
    kmallocAligned h size alignment = .ok (0, h) ∨
      ∃ h₁ bs₁ d, alignedTotal size alignment + 19 < 2 ^ 64 ∧
        allocUnzeroed h (alignedTotal size alignment % 2 ^ 64) =
          .ok (d.addr + headerSize, h₁) ∧
        Granted h bs (alignedTotal size alignment) h₁ bs₁ d ∧
        kmallocAligned h size alignment =
          .ok (alignUp ((d.addr + headerSize + 8) % 2 ^ 64) (alignmentFor alignment),
            h₁.place (d.addr + headerSize)
              (alignUp ((d.addr + headerSize + 8) % 2 ^ 64) (alignmentFor alignment)) size) := by
  rw [kmallocAligned_eq]
  by_cases h0 : size = 0
  · rw [if_pos h0]
    exact .inl rfl
  rw [if_neg h0]
  by_cases hpow : isPow2 (alignmentFor alignment) = false
  · rw [hpow]
    exact .inl rfl
  rw [Bool.not_eq_false] at hpow
  rw [if_neg (by simp [hpow])]
  rcases hno with hno | hno | hno | hno
  · exact absurd hno h0
  · rw [hpow] at hno
    cases hno
  · rw [Nat.mod_eq_of_lt (show alignedTotal size alignment < 2 ^ 64 by omega)]
    rcases allocUnzeroed_spec hr hno with hrun | ⟨h₁, bs₁, d, hrun, hg⟩
    · rw [hrun]
      exact .inl rfl
    · refine .inr ⟨h₁, bs₁, d, hno, hrun, hg, ?_⟩
      rw [hrun]
      exact if_neg (show ¬ d.addr + headerSize = 0 by unfold headerSize; omega)
  · -- nothing is asked for
    rw [hno]
    exact .inl rfl

theorem Granted.aligned {h₁ : Allocator} {bs₁ : List Block}
    (hg : Granted h bs (alignedTotal size alignment) h₁ bs₁ d) : d.addr + headerSize + 8 ≤
        alignUp ((d.addr + headerSize + 8) % 2 ^ 64) (alignmentFor alignment) ∧
      alignUp ((d.addr + headerSize + 8) % 2 ^ 64) (alignmentFor alignment) + size + footerSize ≤
        d.addr + headerSize + d.size := by
  have hd := (mem_liveBlocks.mp ((hg.live d).mpr (.inl rfl))).1
  have hroom := hg.room
  have hstop := hg.rep.layout.stop_le hd
  have hend := hg.rep.layout.end_lt
  have hpos := alignmentFor_pos alignment
  unfold alignedTotal at *
  unfold Block.stop at hstop
  rw [Nat.mod_eq_of_lt (by omega)]
  have hup := alignUp_eq (v := d.addr + headerSize + 8) (show 0 < alignmentFor alignment by omega)
    (by omega)
  omega

theorem Client.Inv.served {c : Client} (hi : c.Inv bs) {r : Request}
    (hr : r.NoWrap) : r.Served c := by
  have halloc : ∀ n, n + 19 < 2 ^ 64 → ∀ q h', alloc c.heap n = .ok (q, h') → q ≠ 0 →
      h'.Holds q q n :=
    fun n hn q h' hrun hq => holds_of_request (Client.alloc_request hi.rep hn) hrun hq
  cases r with
  | alloc size => exact halloc size hr
  | allocArray count elemSize =>
    intro q h' hrun hq
    rcases hr with hr | hr
    · rw [allocArray_eq c.heap (by omega)] at hrun
      exact halloc _ hr q h' hrun hq
    · rw [allocArray_overflow c.heap hr] at hrun
      cases hrun
      exact absurd rfl hq
  | allocResize newSize =>
    rintro ptr hptr q h' hrun hq
    by_cases hp0 : ptr = 0
    · unfold allocResize at hrun
      rw [if_pos hp0] at hrun
      exact halloc newSize hr q h' hrun hq
    · obtain ⟨b, hb, rfl⟩ := (hi.live ptr).mp (hptr.resolve_left hp0)
      have hbm := (mem_liveBlocks.mp hb).1
      by_cases hn0 : newSize = 0
      · -- the block is freed
        unfold allocResize at hrun
        rw [if_pos hn0] at hrun
        cases hfree : Heap.freeMem c.heap (b.addr + headerSize) with
        | error e =>
          rw [hfree] at hrun
          cases hrun
        | ok h₁ =>
          rw [hfree] at hrun
          cases hrun
          exact absurd rfl hq
      · rcases allocResize_spec hi.rep hb hn0 hr with
          ⟨hfit, hrun'⟩ | hrun' | ⟨h₁, bs', d, -, hrun', hm⟩
        · rw [hrun'] at hrun
          cases hrun
          refine ⟨le_rfl, ?_⟩
          rw [Nat.add_sub_cancel, (hi.rep.layout.describes b hbm).size]
          omega
        · rw [hrun'] at hrun
          cases hrun
          exact absurd rfl hq
        · rw [hrun'] at hrun
          cases hrun
          have hroom := hm.room
          have hd := (mem_liveBlocks.mp ((hm.live d).mpr (.inl rfl))).1
          refine ⟨le_rfl, ?_⟩
          rw [Nat.add_sub_cancel, (hm.rep.layout.describes d hd).size]
          omega
  | kmallocAligned size alignment =>
    intro q h' hrun hq
    rcases kmallocAligned_spec hi.rep hr with hrun' | ⟨h₁, bs₁, d, -, hunz, hg, hrun'⟩
    · rw [hrun'] at hrun
      cases hrun
      exact absurd rfl hq
    · rw [hrun'] at hrun
      cases hrun
      have hd := (mem_liveBlocks.mp ((hg.live d).mpr (.inl rfl))).1
      obtain ⟨hlo, hhi⟩ := hg.aligned
      refine ⟨_, h₁, hunz, by omega, ?_⟩
      rw [Nat.add_sub_cancel, (hg.rep.layout.describes d hd).size]
      exact hhi

/-! ## Sizes that wrap -/

theorem alloc_page_wraps :
    (alloc pageHeap (2 ^ 64 - 4)).map (fun r => (r.1, r.2.get 0x1000 .size)) = .ok (0x1020, 0) ∧
      (alloc pageHeap (2 ^ 64 - 1)).map (fun r => (r.1, r.2.get 0x1000 .size)) =
        .ok (0x1020, 16) := by
  decide +kernel

theorem alloc_page_not_holds (hn : n < 2 ^ 64) (hwrap : 2 ^ 64 ≤ n + 19) :
    ∃ h', alloc pageHeap n = .ok (0x1020, h') ∧ ¬ h'.Holds 0x1020 0x1020 n := by
  have hcongr : ∀ m, m ≠ 0 → payloadSize n = payloadSize m → alloc pageHeap n = alloc pageHeap m := by
    intro m hm heq
    unfold alloc
    rw [if_neg (by omega), if_neg hm, heq]
  have hsmall : ∀ m size, m ≠ 0 → payloadSize n = payloadSize m → size ≤ 16 →
      (alloc pageHeap m).map (fun r => (r.1, r.2.get 0x1000 .size)) = .ok (0x1020, size) →
      ∃ h', alloc pageHeap n = .ok (0x1020, h') ∧ ¬ h'.Holds 0x1020 0x1020 n := by
    intro m size hm heq hsize hrun
    rw [← hcongr m hm heq] at hrun
    cases halloc : alloc pageHeap n with
    | error e =>
      rw [halloc] at hrun
      cases hrun
    | ok r =>
      obtain ⟨q, h'⟩ := r
      rw [halloc] at hrun
      obtain ⟨rfl, hget⟩ : q = 0x1020 ∧ h'.get 0x1000 .size = size := by
        simpa [Except.map] using hrun
      refine ⟨h', rfl, fun hholds => ?_⟩
      have hle : 0x1020 + n + 4 ≤ 0x1020 + h'.get 0x1000 .size := hholds.2
      omega
  obtain ⟨hzero, hsixteen⟩ := alloc_page_wraps
  rcases payloadSize_wrap hn hwrap with heq | heq
  · exact hsmall _ 0 (by norm_num) heq (by norm_num) hzero
  · exact hsmall _ 16 (by norm_num) heq le_rfl hsixteen

/-- A heap of three quarters of the address space, at 16. -/
def bigHeap : Allocator := freshHeap (fun _ => 0) 16 (2 ^ 63 + 2 ^ 62)

theorem region_big : Region 16 (2 ^ 63 + 2 ^ 62) :=
  ⟨by norm_num, by norm_num, by norm_num, by decide⟩

theorem allocatorInit_big : allocatorInit (fun _ => 0) 16 (2 ^ 63 + 2 ^ 62) = .ok bigHeap :=
  allocatorInit_eq _ (by norm_num) (by norm_num) (by norm_num)

theorem rep_big : Rep bigHeap [⟨16, 2 ^ 63 + 2 ^ 62 - 32, true⟩] :=
  (region_big.inv allocatorInit_big).rep

theorem allocLocked_big_wraps :
    (allocLocked bigHeap 0).map (fun r => (r.1, r.2.get 16 .size)) = .ok (48, 0) ∧
      (allocLocked bigHeap 16).map (fun r => (r.1, r.2.get 16 .size)) = .ok (48, 16) := by
  decide +kernel

/-- The big heap serves every request up to half of the address space, and every one that wraps. -/
theorem allocUnzeroed_big (total : ℕ) (h0 : total ≠ 0) (hlt : total < 2 ^ 64)
    (htotal : total < 2 ^ 63 + 8 ∨ 2 ^ 64 ≤ total + 19) :
    ∃ h₁, allocUnzeroed bigHeap total = .ok (48, h₁) ∧ h₁.get 16 .size ≤ 2 ^ 63 + 2 ^ 62 := by
  unfold allocUnzeroed
  rw [if_neg h0]
  rcases htotal with htotal | hwrap
  · obtain ⟨hmin, halign, -⟩ := payloadSize_eq (show total + 19 < 2 ^ 64 by omega)
    have hle : payloadSize total ≤ 2 ^ 63 + 2 ^ 62 - 32 := by
      unfold payloadSize align alignment minBlockSize footerSize
      dsimp only
      split_ifs <;> omega
    rcases allocLocked_spec rep_big hmin halign with
      ⟨hsmall, -⟩ | ⟨h', bs', b, hb, hbf, -, hrun, hr', hlive, -⟩
    · have hlt := hsmall _ List.mem_cons_self rfl
      exact absurd hle (by simpa using hlt)
    · obtain rfl := List.mem_singleton.mp hb
      refine ⟨h', hrun, ?_⟩
      have hd := (mem_liveBlocks.mp ((hlive _).mpr (.inl rfl))).1
      have hsize := (hr'.layout.describes _ hd).size
      rw [usedBlock_addr] at hsize
      rw [hsize]
      unfold usedBlock
      split_ifs
      · exact hle.trans (by norm_num)
      · norm_num
  · obtain ⟨hzero, hsixteen⟩ := allocLocked_big_wraps
    have hsmall : ∀ p size, payloadSize total = p → size ≤ 16 →
        (allocLocked bigHeap p).map (fun r => (r.1, r.2.get 16 .size)) = .ok (48, size) →
        ∃ h₁, allocLocked bigHeap (payloadSize total) = .ok (48, h₁) ∧
          h₁.get 16 .size ≤ 2 ^ 63 + 2 ^ 62 := by
      rintro p size rfl hsize hrun
      cases hlocked : allocLocked bigHeap (payloadSize total) with
      | error e =>
        rw [hlocked] at hrun
        cases hrun
      | ok r =>
        obtain ⟨q, h₁⟩ := r
        rw [hlocked] at hrun
        obtain ⟨rfl, hget⟩ : q = 48 ∧ h₁.get 16 .size = size := by simpa [Except.map] using hrun
        exact ⟨h₁, rfl, by omega⟩
    rcases payloadSize_wrap hlt hwrap with heq | heq
    · exact hsmall 0 0 (heq.trans (by decide)) (by norm_num) hzero
    · exact hsmall 16 16 (heq.trans (by decide)) le_rfl hsixteen

theorem isPow2_le {a : ℕ} (hpow : isPow2 a = true) (hlt : a < 2 ^ 64) : a ≤ 2 ^ 63 := by
  by_contra hbig
  have hand : a &&& (a - 1) = 0 := by
    unfold isPow2 at hpow
    simp at hpow
    exact hpow.2
  have hbit : ∀ n, 2 ^ 63 ≤ n → n < 2 ^ 64 → n.testBit 63 = true := by
    intro n hn hn'
    rw [Nat.testBit_eq_decide_div_mod_eq]
    exact decide_eq_true (by omega)
  have htest : (a &&& (a - 1)).testBit 63 = true := by
    rw [Nat.testBit_and, hbit a (by omega) hlt, hbit (a - 1) (by omega) (by omega)]
    rfl
  rw [hand] at htest
  simp at htest

theorem kmallocAligned_big_not_holds (hsize : size < 2 ^ 64) (halign : alignment < 2 ^ 64)
    (h0 : size ≠ 0) (hpow : isPow2 (alignmentFor alignment) = true)
    (hwrap : 2 ^ 64 ≤ alignedTotal size alignment + 19)
    (hne : alignedTotal size alignment ≠ 2 ^ 64) :
    ∃ q h', kmallocAligned bigHeap size alignment = .ok (q, h') ∧ q ≠ 0 ∧
      ∀ raw h₁, allocUnzeroed bigHeap (alignedTotal size alignment % 2 ^ 64) = .ok (raw, h₁) →
        ¬ h₁.Holds raw q size := by
  have hpos := alignmentFor_pos alignment
  have hlt : alignmentFor alignment < 2 ^ 64 := by
    unfold alignmentFor
    split_ifs
    · norm_num
    · exact halign
  have hle := isPow2_le hpow hlt
  have hS : alignedTotal size alignment = size + alignmentFor alignment + 8 := rfl
  obtain ⟨h₁, hunz, hget⟩ := allocUnzeroed_big (alignedTotal size alignment % 2 ^ 64)
    (by omega) (by omega) (by omega)
  have hup := alignUp_eq (v := 56) (show 0 < alignmentFor alignment by omega) (by omega)
  have hmul : alignmentFor alignment ≤ alignUp 56 (alignmentFor alignment) := by
    unfold alignUp at hup
    refine Nat.le_mul_of_pos_left _ (Nat.pos_of_ne_zero fun hz => ?_)
    rw [hz] at hup
    omega
  refine ⟨alignUp 56 (alignmentFor alignment),
    h₁.place 48 (alignUp 56 (alignmentFor alignment)) size, ?_, by omega, ?_⟩
  · rw [kmallocAligned_eq, if_neg h0, hpow, hunz]
    rfl
  · intro raw h₂ hunz' hholds
    rw [hunz] at hunz'
    cases hunz'
    have hle : alignUp 56 (alignmentFor alignment) + size + 4 ≤ 48 + h₁.get 16 .size := hholds.2
    omega

/-! ## Exactly when a request is served -/

theorem reachable_start {m : Mem} {memory : ℕ} (hregion : Region memory size)
    (hinit : allocatorInit m memory size = .ok h) : Reachable (Client.start h) :=
  ⟨m, memory, size, h, [], hregion, hinit, trivial, rfl⟩

/-- **Served requests.** Whatever pointer a request returns, on whatever heap, has the bytes asked for
exactly when no sum of the request wraps. -/
theorem served_iff {r : Request} (hr : r.Wide) : (∀ c, Reachable c → r.Served c) ↔ r.NoWrap := by
  constructor
  · intro hall
    have hpage := reachable_start ⟨by norm_num, by norm_num, by norm_num, by decide⟩
      allocatorInit_page
    have halloc : ∀ n, n < 2 ^ 64 →
        (∀ q h', alloc pageHeap n = .ok (q, h') → q ≠ 0 → h'.Holds q q n) → n + 19 < 2 ^ 64 := by
      intro n hn hserved
      by_contra hwrap
      obtain ⟨h', hrun, hnot⟩ := alloc_page_not_holds hn (by omega)
      exact hnot (hserved _ h' hrun (by norm_num))
    cases r with
    | alloc size => exact halloc size hr (hall _ hpage)
    | allocArray count elemSize =>
      by_cases hover : 2 ^ 64 ≤ count * elemSize
      · exact .inr hover
      · have hmul : count * elemSize < 2 ^ 64 := not_le.mp hover
        refine .inl (halloc _ hmul fun q h' hrun hq => hall _ hpage q h' ?_ hq)
        exact (allocArray_eq _ hmul).trans hrun
    | allocResize newSize =>
      refine halloc newSize hr fun q h' hrun hq => hall _ hpage 0 (.inl rfl) q h' ?_ hq
      exact (if_pos rfl).trans hrun
    | kmallocAligned size alignment =>
      by_contra hnot
      unfold Request.NoWrap at hnot
      rw [not_or, not_or, not_or] at hnot
      obtain ⟨h0, hpow, hwrap, hne⟩ := hnot
      obtain ⟨q, h', hrun, hq, hbad⟩ := kmallocAligned_big_not_holds hr.1 hr.2 h0
        (by simpa using hpow) (by omega) hne
      obtain ⟨raw, h₁, hunz, hholds⟩ := hall _ (reachable_start region_big allocatorInit_big) q h'
        hrun hq
      exact hbad raw h₁ hunz hholds
  · rintro hno c hc
    obtain ⟨bs, hi⟩ := hc.inv
    exact hi.served hno

theorem served_page : ∃ c, (Client.start pageHeap).run [.alloc 1] = .ok c ∧
    (Request.kmallocAligned 100 64).Served c := by
  obtain ⟨c, hrun, hc⟩ := reachable_pageAlloc
  exact ⟨c, hrun, (served_iff (r := .kmallocAligned 100 64) ⟨by norm_num, by norm_num⟩).mpr
    (.inr (.inr (.inl (by decide)))) c hc⟩

/-- A request for 2⁶⁴ - 1 bytes gets a block with twelve. -/
theorem alloc_wraps :
    (do
      let h ← allocatorInit (fun _ => 0) 0x1000 4096
      let (q, h) ← alloc h (2 ^ 64 - 1)
      pure (q, h.get (q - headerSize) .size - footerSize) : Except Stop (ℕ × ℕ)) =
      .ok (0x1020, 12) := by
  decide +kernel

end MinimalOS.Heap
