import MinimalOS.Heap.Reach

/-!
# Resizing a block

`alloc_resize` leaves a block where it is if its payload is large enough, and otherwise moves it.
A new size of 0 frees the block. A size that wraps when footer and slack are added passes for a
small one: the new block is smaller than the old one, and the copy runs over its end.
-/

namespace MinimalOS.Heap

open ByteMem LinkedChain Allocator

attribute [local irreducible] Allocator.get readLE

/-- The bytes the holder of `p` may use. -/
def Allocator.usableSize (h : Allocator) (p : ℕ) : ℕ := h.get (p - headerSize) .size - footerSize

/-- `p` points to a block in use. -/
def Allocator.InUse (h : Allocator) (p : ℕ) : Prop :=
  h.validateBlockFull (p - headerSize) = true ∧ h.isFree (p - headerSize) = false

/-- What resizing promises: the call returns; if it fails, the block stays as it is; if not, the
new block starts with the bytes of the old one; and all other blocks held keep theirs. -/
def ResizeOk (c : Client) (p m : ℕ) : Prop :=
  ∃ q h', allocResize c.heap p m = .ok (q, h') ∧
    (q = 0 → h'.InUse p ∧ ∀ i < c.heap.usableSize p, h'.mem (p + i) = c.heap.mem (p + i)) ∧
    (q ≠ 0 → h'.InUse q ∧
      ∀ i < min (c.heap.usableSize p) m, h'.mem (q + i) = c.heap.mem (p + i)) ∧
    ∀ p' ∈ c.live, p' ≠ p → ∀ i < c.heap.usableSize p', h'.mem (p' + i) = c.heap.mem (p' + i)

variable {h : Allocator} {bs : List Block} {c : Client} {p m : ℕ}

theorem Layout.inUse (hl : Layout h bs) {b : Block} (hb : b ∈ liveBlocks bs) :
    h.InUse (b.addr + headerSize) := by
  obtain ⟨hbm, hbf⟩ := mem_liveBlocks.mp hb
  unfold InUse
  rw [Nat.add_sub_cancel, validateBlockFull_eq, hl.validateBlockFast_eq hbm, hl.isFree_eq hbm]
  exact ⟨rfl, hbf⟩

theorem Layout.usableSize_eq (hl : Layout h bs) {b : Block} (hb : b ∈ bs) :
    h.usableSize (b.addr + headerSize) = b.size - footerSize := by
  unfold usableSize
  rw [Nat.add_sub_cancel, (hl.describes b hb).size]

theorem Client.Inv.resizeOk (hi : c.Inv bs) (hp : p ∈ c.live) (h0 : m ≠ 0) (hm : m + 19 < 2 ^ 64) :
    ResizeOk c p m := by
  have hl := hi.rep.layout
  obtain ⟨b, hb, rfl⟩ := (hi.live p).mp hp
  have hbm := (mem_liveBlocks.mp hb).1
  have hptr : ∀ a, a + headerSize ≠ 0 := fun a => by unfold headerSize; omega
  unfold ResizeOk
  rw [hl.usableSize_eq hbm]
  rcases allocResize_spec hi.rep hb h0 hm with ⟨-, hrun⟩ | hrun | ⟨h', bs', d, -, hrun, hmoved⟩
  · exact ⟨_, _, hrun, fun h => absurd h (hptr _), fun _ => ⟨hl.inUse hb, fun _ _ => rfl⟩,
      fun _ _ _ _ _ => rfl⟩
  · exact ⟨_, _, hrun, fun _ => ⟨hl.inUse hb, fun _ _ => rfl⟩, fun h => absurd rfl h,
      fun _ _ _ _ _ => rfl⟩
  · refine ⟨_, _, hrun, fun h => absurd h (hptr _), fun _ => ⟨?_, fun i hlt => ?_⟩, ?_⟩
    · exact hmoved.rep.layout.inUse ((hmoved.live d).mpr (Or.inl rfl))
    · exact hmoved.copied i (lt_of_lt_of_le hlt (min_le_left _ _))
    · intro p' hp' hne i hlt
      obtain ⟨e, he, rfl⟩ := (hi.live p').mp hp'
      have hem := (mem_liveBlocks.mp he).1
      rw [hl.usableSize_eq hem] at hlt
      refine hmoved.bytes e he (by omega) _ ((e.mem_usable ?_).mpr ⟨by omega, by omega⟩)
      omega

/-! ## Sizes that wrap -/

theorem payloadSize_wrap {n : ℕ} (hn : n < 2 ^ 64) (hwrap : 2 ^ 64 ≤ n + 19) :
    payloadSize n = payloadSize (2 ^ 64 - 4) ∨ payloadSize n = payloadSize (2 ^ 64 - 1) := by
  unfold payloadSize align alignment minBlockSize footerSize
  dsimp only
  rw [if_neg (by omega), if_neg (by norm_num), if_neg (by norm_num)]
  omega

theorem allocResize_congr {m' : ℕ} (hp : p ≠ 0) (hm : h.usableSize p < m)
    (hm' : h.usableSize p < m') (heq : payloadSize m = payloadSize m') :
    allocResize h p m = allocResize h p m' := by
  have halloc : alloc h m = alloc h m' := by
    unfold alloc
    rw [if_neg (by omega), if_neg (by omega), heq]
  unfold allocResize
  rw [if_neg hp, if_neg (by omega : ¬ m = 0), if_neg hp, if_neg (by omega : ¬ m' = 0)]
  refine congrArg (ite _ _) ?_
  rw [halloc]
  exact (if_neg (not_le.mpr hm)).trans (if_neg (not_le.mpr hm')).symm

theorem allocResize_page (hrun : (Client.start pageHeap).run [.alloc 1] = .ok c) :
    c.heap.usableSize 0x1020 = 44 ∧
      (allocResize c.heap 0x1020 0).map (fun r => (r.1, r.2.isFree 0x1000)) = .ok (0, true) ∧
      (allocResize c.heap 0x1020 (2 ^ 64 - 4)).map (fun r =>
        (r.1, r.2.validateBlockFull (r.1 - headerSize))) = .ok (0x1070, false) ∧
      (allocResize c.heap 0x1020 (2 ^ 64 - 1)).map Prod.fst =
        .error (.panic "coalesce: corrupted block") := by
  have heval : ((Client.start pageHeap).run [.alloc 1]).map (fun c =>
      (c.heap.usableSize 0x1020,
        (allocResize c.heap 0x1020 0).map (fun r => (r.1, r.2.isFree 0x1000)),
        (allocResize c.heap 0x1020 (2 ^ 64 - 4)).map (fun r =>
          (r.1, r.2.validateBlockFull (r.1 - headerSize))),
        (allocResize c.heap 0x1020 (2 ^ 64 - 1)).map Prod.fst)) =
      .ok (44, .ok (0, true), .ok (0x1070, false),
        .error (.panic "coalesce: corrupted block")) := by
    decide +kernel
  rw [hrun] at heval
  simpa [Except.map] using heval

/-- **Resizing.** A new size keeps the promise for every live block of every reachable heap exactly
when it is not 0 and does not wrap. -/
theorem resizeOk_iff {m : ℕ} (hm : m < 2 ^ 64) :
    (∀ c, Reachable c → ∀ p ∈ c.live, ResizeOk c p m) ↔ m ≠ 0 ∧ m + 19 < 2 ^ 64 := by
  constructor
  · intro hall
    obtain ⟨c, hrun, hc⟩ := reachable_pageAlloc
    obtain ⟨hlive, -⟩ := headersTile_page hrun
    obtain ⟨hsize, hzero, hinvalid, hpanic⟩ := allocResize_page hrun
    obtain ⟨q, h', hresize, hnull, hmoved, -⟩ := hall c hc 0x1020 (by simp [hlive])
    constructor
    · rintro rfl
      rw [hresize] at hzero
      obtain ⟨rfl, hfree⟩ : q = 0 ∧ h'.isFree 0x1000 = true := by
        simpa [Except.map] using hzero
      have hused : h'.isFree 0x1000 = false := (hnull rfl).1.2
      rw [hfree] at hused
      cases hused
    · by_contra hwrap
      have hgrow : ∀ n, 44 < n → payloadSize m = payloadSize n →
          allocResize c.heap 0x1020 n = .ok (q, h') := by
        intro n hn heq
        rw [← hresize]
        exact (allocResize_congr (by norm_num) (by omega) (by omega) heq).symm
      rcases payloadSize_wrap hm (by omega) with heq | heq
      · rw [hgrow _ (by norm_num) heq] at hinvalid
        obtain ⟨rfl, hbad⟩ : q = 0x1070 ∧ h'.validateBlockFull (q - headerSize) = false := by
          simpa [Except.map] using hinvalid
        rw [(hmoved (by norm_num)).1.1] at hbad
        cases hbad
      · rw [hgrow _ (by norm_num) heq] at hpanic
        cases hpanic
  · rintro ⟨h0, hwrap⟩ c hc p hp
    obtain ⟨bs, hi⟩ := hc.inv
    exact hi.resizeOk hp h0 hwrap

theorem resizeOk_page : ∃ c, (Client.start pageHeap).run [.alloc 1] = .ok c ∧
    ResizeOk c 0x1020 100 := by
  obtain ⟨c, hrun, hc⟩ := reachable_pageAlloc
  obtain ⟨hlive, -⟩ := headersTile_page hrun
  exact ⟨c, hrun, (resizeOk_iff (by norm_num)).mpr (by norm_num) c hc 0x1020
    (by simp [hlive])⟩

/-- A size of 2⁶⁴ - 1 gets a block of 16 bytes, and the copy destroys the header behind it. -/
theorem allocResize_wraps :
    (do
      let h ← allocatorInit (fun _ => 0) 0x1000 4096
      let c ← (Client.start h).run [.alloc 1]
      let (q, _) ← allocResize c.heap 0x1020 (2 ^ 64 - 1)
      pure q : Except Stop ℕ) = .error (.panic "coalesce: corrupted block") := by
  decide +kernel

end MinimalOS.Heap
