import MinimalOS.Heap.Tiling

/-!
# The memory of a well-formed heap

`Layout h bs` says that the allocator's memory describes the row of blocks `bs`: every header and
footer, and the free list, which holds the free blocks in address order. The list operations of
the source change the row in the obvious way and keep `Layout`; none of them can stop.
-/

namespace MinimalOS.Heap

open ByteMem LinkedChain Allocator List

/-- The header and the footer of `b` are in place. -/
structure Describes (h : Allocator) (b : Block) : Prop where
  size : h.get b.addr .size = b.size
  magic : h.get b.addr .magic = blockMagic
  free : h.get b.addr .free = if b.free then 1 else 0
  footer : readLE h.mem footerSize (b.stop - footerSize) = footerMagic

structure Layout (h : Allocator) (bs : List Block) : Prop where
  start_ne : h.heapStart ≠ 0
  start_aligned : h.heapStart % alignment = 0
  end_lt : h.heapEnd < 2 ^ 64
  end_eq : h.heapEnd = h.heapStart + h.heapSize
  tiles : Tiles h.heapStart bs h.heapEnd
  shape : ∀ b ∈ bs, minBlockSize ≤ b.size ∧ b.size % alignment = 0
  describes : ∀ b ∈ bs, Describes h b
  list : h.FreeList (freeAddrs bs)

theorem Layout.withCounters {h : Allocator} {bs : List Block} (hl : Layout h bs)
    (allocated free peak : ℕ) :
    Layout { h with totalAllocated := allocated, totalFree := free, peakUsage := peak } bs where
  start_ne := hl.start_ne
  start_aligned := hl.start_aligned
  end_lt := hl.end_lt
  end_eq := hl.end_eq
  tiles := hl.tiles
  shape := hl.shape
  describes := fun b hb =>
    have hd := hl.describes b hb
    ⟨hd.size, hd.magic, hd.free, hd.footer⟩
  list := hl.list

attribute [local irreducible] Allocator.get readLE

namespace Layout

variable {h h' : Allocator} {bs pre post : List Block} {b : Block}

section

variable (hl : Layout h bs)

include hl

theorem apartOn : ApartOn (addrs bs) := hl.tiles.apartOn hl.start_ne

theorem fits : ∀ u ∈ addrs bs, Fits .next u := hl.tiles.fits hl.end_lt

theorem stop_le (hb : b ∈ bs) : b.stop ≤ h.heapEnd := (hl.tiles.mem hb).2

theorem addr_ge (hb : b ∈ bs) : h.heapStart ≤ b.addr := (hl.tiles.mem hb).1

theorem addr_ne (hb : b ∈ bs) : b.addr ≠ 0 :=
  hl.apartOn.ne_zero _ (Block.addr_mem hb)

end

section

variable (hl : Layout h (pre ++ b :: post)) (hb : b.free = true)

include hl hb

theorem list_free : FreeList h (freeAddrs pre ++ b.addr :: freeAddrs post) := by
  have hlist := hl.list
  rwa [freeAddrs_append, freeAddrs_cons, if_pos hb] at hlist

theorem next_eq : h.get b.addr .next = (freeAddrs post).headD 0 :=
  (hl.list_free hb).next (hl.addr_ne (by simp))

theorem prev_eq : h.get b.addr .prev = (freeAddrs pre).getLastD 0 :=
  (hl.list_free hb).prev (hl.addr_ne (by simp))

end

theorem addr_aligned (hl : Layout h bs) (hb : b ∈ bs) : b.addr % alignment = 0 :=
  hl.tiles.aligned hl.start_aligned (fun c hc => (hl.shape c hc).2) b hb

theorem validateBlockFast_eq (hl : Layout h bs) (hb : b ∈ bs) :
    h.validateBlockFast b.addr = true := by
  have hd := hl.describes b hb
  have hs := hl.shape b hb
  have := hl.addr_ge hb
  have hstop := hl.stop_le hb
  have := hl.end_lt
  have := hl.addr_ne hb
  unfold Block.stop minBlockSize at *
  unfold validateBlockFast blockInHeap
  rw [hd.size, hd.magic, Nat.mod_eq_of_lt (by omega : b.addr + headerSize + b.size < 2 ^ 64)]
  simp only [decide_eq_true_eq, Bool.and_eq_true]
  refine ⟨⟨⟨⟨‹_›, trivial⟩, ⟨⟨⟨‹_›, ‹_›⟩, ?_⟩, hstop⟩, ?_⟩, hs.1⟩, hs.2⟩ <;> omega

theorem freeAddrs_le_maxVisits (hl : Layout h bs) : (freeAddrs bs).length ≤ h.maxVisits := by
  have := freeAddrs_length_le bs
  have := hl.tiles.length_le fun c hc => (hl.shape c hc).1
  have := hl.end_eq
  unfold maxVisits headerSize minBlockSize
  omega

end Layout

theorem validateBlockFull_eq (h : Allocator) (b : ℕ) :
    h.validateBlockFull b = h.validateBlockFast b := by
  unfold validateBlockFull validateBlockFast
  split_ifs with h0 hm hh hs
  · simp [h0]
  · simp [hm]
  · rw [Bool.not_eq_true'] at hh
    simp [hh]
  · rcases hs with hs | hs
    · simp [Nat.not_le.mpr hs]
    · simp [hs]
  · rw [not_or, Nat.not_lt, not_not] at hs
    rw [Bool.not_eq_true'] at hh
    simp [h0, not_not.mp hm, hh, hs]

namespace Layout

variable {h h' : Allocator} {bs pre post : List Block} {b c : Block}

theorem footer_notMem (hl : Layout h bs) (hc : c ∈ bs) {i : ℕ} (hi : c.stop - footerSize ≤ i)
    (hi' : i < c.stop) : i ∉ headerBytes (addrs bs) := by
  rintro ⟨u, hu, hui, hui'⟩
  have := hl.tiles.footer_clear (fun d hd => (hl.shape d hd).1) hc hu
  omega

section

variable (hl : Layout h bs) (ht : Touches (headerBytes (addrs bs)) h h') (hc : c ∈ bs)

include hl ht hc

theorem footer_eq : readLE h'.mem footerSize (c.stop - footerSize) = footerMagic := by
  rw [ht.readLE_eq, (hl.describes c hc).footer]
  intro i hi hi'
  refine hl.footer_notMem hc hi ?_
  unfold Block.stop footerSize headerSize at *
  omega

theorem describes_of_touches (hs : h'.get c.addr .size = h.get c.addr .size)
    (hm : h'.get c.addr .magic = h.get c.addr .magic)
    (hf : h'.get c.addr .free = h.get c.addr .free) : Describes h' c :=
  have hd := hl.describes c hc
  ⟨hs.trans hd.size, hm.trans hd.magic, hf.trans hd.free, hl.footer_eq ht hc⟩

end

theorem of_touches {P : Set ℕ} {bs' : List Block} (hl : Layout h bs) (ht : Touches P h h')
    (htiles : Tiles h.heapStart bs' h.heapEnd)
    (hshape : ∀ c ∈ bs', minBlockSize ≤ c.size ∧ c.size % alignment = 0)
    (hdesc : ∀ c ∈ bs', Describes h' c) (hlist : h'.FreeList (freeAddrs bs')) : Layout h' bs' where
  start_ne := ht.start ▸ hl.start_ne
  start_aligned := ht.start ▸ hl.start_aligned
  end_lt := ht.stop ▸ hl.end_lt
  end_eq := by rw [ht.start, ht.stop, ht.size]; exact hl.end_eq
  tiles := by rw [ht.start, ht.stop]; exact htiles
  shape := hshape
  describes := hdesc
  list := hlist

/-- Freeing a block: it enters the list at its place, and nothing else in the row changes. -/
theorem insertFreeBlock (hl : Layout h (pre ++ b :: post)) (hlive : b.free = false) :
    ∃ h', h.insertFreeBlock b.addr = .ok h' ∧
      Layout h' (pre ++ { b with free := true } :: post) ∧
      Touches (headerBytes (addrs (pre ++ b :: post))) h h' := by
  have hb : b ∈ pre ++ b :: post := by simp
  have hbA := Block.addr_mem hb
  have hfs : freeAddrs (pre ++ b :: post) = freeAddrs pre ++ freeAddrs post := by
    rw [freeAddrs_append, freeAddrs_cons, hlive]
    rfl
  have hlist := hl.list
  rw [hfs] at hlist
  have hp := hl.tiles.place hl.start_ne
  have hsub := hp.sub
  obtain ⟨hlo, hhi⟩ := hl.tiles.freeAddrs_lt
  obtain ⟨hx, hy⟩ := neighbours hsub
  have hlen : (freeAddrs pre).length ≤ h.heapSize := by
    have := hl.tiles.length_le fun c hc => (hl.shape c hc).1
    have := freeAddrs_length_le pre
    have := hl.end_eq
    rw [length_append] at *
    omega
  have ht := touches_link (h := h) hbA hx hy
  refine ⟨_, insertFreeBlock_eq hl.apartOn hl.fits hlist hsub hbA hlo hhi hlen, ?_, ht⟩
  obtain ⟨hnext, hprev⟩ := link_links hl.apartOn hl.fits hbA hx hy
  have hfields : ∀ u ∈ addrs (pre ++ b :: post), _ := fun u hu =>
    link_fields (h := h) hl.apartOn hl.fits hbA hx hy hu
  refine hl.of_touches ht (hl.tiles.setFree true) ?_ ?_ ?_
  · intro c hc
    rcases mem_row.mp hc with rfl | hc
    · exact hl.shape b hb
    · exact hl.shape c (mem_insert_mid [b] hc)
  · intro c hc
    rcases mem_row.mp hc with rfl | hc
    · obtain ⟨hs, hm, hf⟩ := hfields b.addr hbA
      have hd := hl.describes b hb
      exact ⟨hs.trans hd.size, hm.trans hd.magic, hf.trans (if_pos rfl),
        (hl.footer_eq ht hb :)⟩
    · have hmem : c ∈ pre ++ b :: post := mem_insert_mid [b] hc
      obtain ⟨hs, hm, hf⟩ := hfields c.addr (Block.addr_mem hmem)
      exact hl.describes_of_touches ht hmem hs hm (hf.trans (if_neg (hl.tiles.addr_ne hc)))
  · rw [freeAddrs_append, freeAddrs_cons]
    have hnot := hp.ne
    obtain ⟨hxm, hym⟩ := ends_mem (freeAddrs pre) (freeAddrs post)
    have hxb := hnot _ hxm
    have hyb := hnot _ hym
    refine FreeList.splice (freeAddrs pre) [] [b.addr] (freeAddrs post) hlist hp.nodup ?_ ?_ ?_
    · intro u hu hux
      rw [hnext u fun h0 => hsub u ((mem_cons.mp hu).resolve_left h0), if_neg hux,
        if_neg (hnot u hu)]
    · intro u hu huy
      rw [hprev u (hsub u hu), if_neg huy, if_neg (hnot u (mem_cons_of_mem _ hu))]
    · refine isChain_cons_cons.mpr ⟨⟨?_, fun _ => ?_⟩, isChain_cons_cons.mpr
        ⟨⟨?_, fun h0 => ?_⟩, .singleton _⟩⟩
      · rw [hnext _ hx, if_pos rfl]
      · rw [hprev _ hbA, if_neg hyb.symm, if_pos rfl]
      · rw [hnext _ fun _ => hbA, if_neg hxb.symm, if_pos rfl]
      · rw [hprev _ (hy h0), if_pos rfl]

/-! ### Merging -/

theorem absorb (hl : Layout h (pre ++ b :: c :: post)) (hb : b.free = true) (hc : c.free = true) :
    ∃ h', h.tryMergeWithNext b.addr = h' ∧
      Layout h' (pre ++ { b with size := b.size + (headerSize + c.size) } :: post) ∧
      Touches (headerBytes (addrs (pre ++ b :: c :: post))) h h' ∧
      h'.get c.addr .magic = absorbedMagic := by
  have hbm : b ∈ pre ++ b :: c :: post := by simp
  have hcm : c ∈ pre ++ b :: c :: post := by simp
  have hbA := Block.addr_mem hbm
  have hcA := Block.addr_mem hcm
  obtain ⟨m, htpre, hbm', hca, htpost⟩ := tiles_append.mp hl.tiles
  have hbd := hl.describes b hbm
  have hcd := hl.describes c hcm
  have hbs := hl.shape b hbm
  have hcs := hl.shape c hcm
  have hfs : freeAddrs (pre ++ b :: c :: post) =
      (freeAddrs pre ++ [b.addr]) ++ ([c.addr] ++ freeAddrs post) := by
    rw [freeAddrs_append, freeAddrs_cons, freeAddrs_cons, if_pos hb, if_pos hc]
    simp
  have hlist := hl.list
  rw [hfs] at hlist
  have hnd := hl.tiles.zero_freeAddrs_nodup hl.start_ne
  rw [hfs] at hnd
  have hsub : ∀ u ∈ (freeAddrs pre ++ [b.addr]) ++ freeAddrs post,
      u ∈ addrs (pre ++ b :: c :: post) := by
    intro u hu
    apply freeAddrs_subset
    rw [hfs, mem_append]
    exact (mem_append.mp hu).imp_right (mem_append_right _)
  obtain ⟨-, hy⟩ := neighbours hsub
  have hcb : c.addr ≠ b.addr := by
    unfold Block.stop headerSize at hca
    omega
  have hnext : h.get b.addr .next = c.addr := by
    rw [append_assoc] at hlist
    exact hlist.next (hl.addr_ne hbm)
  have hcnext : h.get c.addr .next = (freeAddrs post).headD 0 := hlist.next (hl.addr_ne hcm)
  have hstop : Block.stop { b with size := b.size + (headerSize + c.size) } = c.stop := by
    unfold Block.stop at *
    show b.addr + headerSize + (b.size + (headerSize + c.size)) = _
    omega
  have hsz : Fits .size (b.size + (headerSize + c.size)) := by
    have := hl.stop_le hcm
    have := hl.end_lt
    unfold Block.stop headerSize at *
    show _ < 256 ^ 8
    omega
  have heq := tryMergeWithNext_eq hl.apartOn hbA hcA hcb hnext (by rw [hbd.size, hca]; rfl) hcnext
    (by rw [hbd.size, hcd.size]; exact hsz)
  rw [hbd.size, hcd.size] at heq
  have ht := touches_absorb (h := h) (b.size + (headerSize + c.size)) hbA hcA hy
  have hget := fun u (hu : u ∈ addrs (pre ++ b :: c :: post)) =>
    absorb_get (h := h) hl.apartOn hl.fits hbA hcA hy hsz hu
  have hnextOf := fun u (hu : u ≠ 0 → u ∈ addrs (pre ++ b :: c :: post)) =>
    absorb_nextOf (h := h) hl.apartOn hl.fits hbA hcA hy hsz hu
  refine ⟨_, heq, hl.of_touches ht ?_ ?_ ?_ ?_, ht, ?_⟩
  · refine tiles_append.mpr ⟨m, htpre, hbm', ?_⟩
    rw [hstop]
    exact htpost
  · intro d hd
    rcases mem_row.mp hd with rfl | hd
    · show minBlockSize ≤ b.size + (headerSize + c.size) ∧
        (b.size + (headerSize + c.size)) % alignment = 0
      unfold alignment headerSize at *
      omega
    · exact hl.shape d (mem_insert_mid [b, c] hd)
  · intro d hd
    rcases mem_row.mp hd with rfl | hd
    · obtain ⟨hs, hmg, hf, -⟩ := hget b.addr hbA
      rw [if_pos rfl] at hs
      rw [if_neg hcb.symm, hbd.magic] at hmg
      rw [hbd.free] at hf
      refine ⟨hs, hmg, hf, ?_⟩
      rw [hstop]
      exact hl.footer_eq ht hcm
    · have hmem : d ∈ pre ++ b :: c :: post := mem_insert_mid [b, c] hd
      have hdb : d.addr ≠ b.addr := hl.tiles.addr_ne (mem_insert_mid [c] hd)
      have hdc : d.addr ≠ c.addr := by
        have ht' : Tiles h.heapStart ((pre ++ [b]) ++ c :: post) h.heapEnd := by
          rw [append_assoc]
          exact hl.tiles
        refine ht'.addr_ne ?_
        rw [append_assoc]
        exact mem_insert_mid [b] hd
      obtain ⟨hs, hmg, hf, -⟩ := hget d.addr (Block.addr_mem hmem)
      rw [if_neg hdb] at hs
      rw [if_neg hdc] at hmg
      exact hl.describes_of_touches ht hmem hs hmg hf
  · rw [freeAddrs_append, freeAddrs_cons, if_pos (show b.free = true from hb)]
    have hnd' : (0 :: ((freeAddrs pre ++ [b.addr]) ++ freeAddrs post)).Nodup := by
      refine List.Nodup.sublist ?_ hnd
      simp
    have hlast : (freeAddrs pre ++ [b.addr]).getLastD 0 = b.addr := getLastD_concat
    rw [show freeAddrs pre ++ b.addr :: freeAddrs post =
      (freeAddrs pre ++ [b.addr]) ++ ([] ++ freeAddrs post) by simp]
    refine FreeList.splice (freeAddrs pre ++ [b.addr]) [c.addr] [] (freeAddrs post) hlist hnd' ?_
      ?_ ?_
    · intro u hu hub
      rw [hnextOf u fun h0 => hsub u ((mem_cons.mp hu).resolve_left h0),
        if_neg (hlast ▸ hub)]
    · intro u hu huy
      exact (hget u (hsub u hu)).2.2.2.trans (if_neg huy)
    · refine isChain_cons_cons.mpr ⟨⟨?_, fun h0 => ?_⟩, .singleton _⟩
      · rw [hlast, hnextOf _ fun _ => hbA, if_pos rfl]
      · rw [hlast]
        exact (hget _ (hy h0)).2.2.2.trans (if_pos rfl)
  · rw [(hget c.addr hcA).2.1, if_pos rfl]

theorem tryMergeWithNext_eq_self (hl : Layout h (pre ++ b :: post)) (hb : b.free = true)
    (hpost : ∀ c rest, post = c :: rest → c.free = false) : h.tryMergeWithNext b.addr = h := by
  have hbm : b ∈ pre ++ b :: post := by simp
  unfold tryMergeWithNext
  rw [hl.next_eq hb]
  cases post with
  | nil => exact if_pos rfl
  | cons c rest =>
    have hskip : freeAddrs (c :: rest) = freeAddrs rest := by
      rw [freeAddrs_cons, hpost c rest rfl]
      rfl
    rw [hskip]
    by_cases h0 : (freeAddrs rest).headD 0 = 0
    · rw [if_pos h0]
    · rw [if_neg h0, if_pos]
      -- the next free block lies behind the live block `c`
      have hmem := (headD_eq_or_mem (freeAddrs rest)).resolve_left h0
      obtain ⟨d, hd, -, hda⟩ := mem_freeAddrs.mp hmem
      obtain ⟨m, -, -, hca, hrest⟩ := tiles_append.mp hl.tiles
      have hge := (hrest.mem hd).1
      rw [(hl.describes b hbm).size]
      unfold Block.stop headerSize at *
      omega

end Layout

end MinimalOS.Heap
