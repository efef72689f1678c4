import MinimalOS.Heap.Layout

/-!
# Coalescing

`coalesce` walks the free list once and lets each block take over its right neighbour if that is
free too. Live blocks are not touched, no byte outside headers changes, and a header that was
taken over keeps a magic number no check accepts (`Stale`), so that a second `free_mem` of its
pointer is still recognised.
-/

namespace MinimalOS.Heap

open ByteMem LinkedChain Allocator List

attribute [local irreducible] Allocator.get readLE

def freeSize (bs : List Block) : ℕ := ((freeBlocks bs).map (·.size)).sum

def liveSize (bs : List Block) : ℕ := ((liveBlocks bs).map (·.size)).sum

/-- A header that a freed pointer still names: that of a free block, or one inside a free block
that has taken it over. -/
def Stale (h : Allocator) (bs : List Block) (a : ℕ) : Prop :=
  (∃ b ∈ bs, b.free = true ∧ b.addr = a) ∨
    (h.get a .magic = absorbedMagic ∧
      ∃ b ∈ bs, b.free = true ∧ b.addr + headerSize ≤ a ∧ a + headerSize ≤ b.stop)

/-- What merging free neighbours keeps. -/
structure Merged (h : Allocator) (bs : List Block) (h' : Allocator) (bs' : List Block) : Prop where
  layout : Layout h' bs'
  live : liveBlocks bs' = liveBlocks bs
  count : freeSize bs' + headerSize * bs'.length = freeSize bs + headerSize * bs.length
  sub : addrs bs' ⊆ addrs bs
  touches : Touches (headerBytes (addrs bs)) h h'
  stale : ∀ a, Stale h bs a → Stale h' bs' a

variable {bs : List Block} {h : Allocator} {b : Block}

theorem Merged.refl (hl : Layout h bs) : Merged h bs h bs :=
  ⟨hl, rfl, rfl, subset_rfl, .refl _ _, fun _ ha => ha⟩

theorem headerBytes_mono {A B : Set ℕ} (h : A ⊆ B) : headerBytes A ⊆ headerBytes B :=
  fun _ ⟨c, hc, hi⟩ => ⟨c, h hc, hi⟩

theorem Merged.trans {h₁ h₂ h₃ : Allocator} {bs₁ bs₂ bs₃ : List Block}
    (h : Merged h₁ bs₁ h₂ bs₂) (h' : Merged h₂ bs₂ h₃ bs₃) : Merged h₁ bs₁ h₃ bs₃ where
  layout := h'.layout
  live := h'.live.trans h.live
  count := h'.count.trans h.count
  sub := h'.sub.trans h.sub
  touches := h.touches.trans (h'.touches.mono (headerBytes_mono h.sub))
  stale := fun a ha => h'.stale a (h.stale a ha)

theorem Layout.inside_notMem (hl : Layout h bs) (hb : b ∈ bs) {i : ℕ}
    (hi : b.addr + headerSize ≤ i) (hi' : i < b.stop) : i ∉ headerBytes (addrs bs) := by
  rintro ⟨_, ⟨d, hd, rfl⟩, hdi, hdi'⟩
  by_cases hbd : d.addr = b.addr
  · omega
  · have := hl.tiles.apart hd hb hbd
    unfold Block.stop at *
    omega

theorem Merged.absorb {pre post : List Block} {c : Block} (hl : Layout h (pre ++ b :: c :: post))
    (hb : b.free = true) (hc : c.free = true) :
    Merged h (pre ++ b :: c :: post) (h.tryMergeWithNext b.addr)
      (pre ++ { b with size := b.size + (headerSize + c.size) } :: post) := by
  obtain ⟨h', heq, hl', ht, hm⟩ := hl.absorb hb hc
  rw [heq]
  obtain ⟨m, -, -, hca, -⟩ := tiles_append.mp hl.tiles
  refine ⟨hl', ?_, ?_, ?_, ht, ?_⟩
  · simp [liveBlocks, hb, hc]
  · simp only [freeSize, freeBlocks, filter_append, filter_cons, hb, hc, if_true,
      map_append, map_cons, sum_append, sum_cons, length_append,
      length_cons]
    unfold headerSize
    omega
  · rintro _ ⟨d, hd, rfl⟩
    rcases mem_row.mp hd with rfl | hd
    · exact ⟨b, by simp, rfl⟩
    · exact ⟨d, mem_insert_mid [b, c] hd, rfl⟩
  · -- a block of the old row is in the new one, or is `c`
    have hcover : ∀ d ∈ pre ++ b :: c :: post, d.free = true → ∃ e ∈
        pre ++ { b with size := b.size + (headerSize + c.size) } :: post,
        e.free = true ∧ e.addr ≤ d.addr ∧ d.stop ≤ e.stop ∧ (d ≠ c → e.addr = d.addr) := by
      intro d hd hdf
      rcases mem_row.mp hd with rfl | hd
      · refine ⟨_, mem_row.mpr (.inl rfl), hb, le_rfl, ?_, fun _ => rfl⟩
        unfold Block.stop
        show _ ≤ d.addr + headerSize + (d.size + (headerSize + c.size))
        omega
      · rcases mem_row.mp hd with rfl | hd
        · refine ⟨_, mem_row.mpr (.inl rfl), hb, ?_, ?_, fun h => absurd rfl h⟩
          · unfold Block.stop at hca
            show b.addr ≤ d.addr
            omega
          · unfold Block.stop at *
            show _ ≤ b.addr + headerSize + (b.size + (headerSize + d.size))
            omega
        · exact ⟨d, mem_row.mpr (.inr hd), hdf, le_rfl, le_rfl, fun _ => rfl⟩
    rintro a (⟨d, hd, hdf, rfl⟩ | ⟨hma, d, hd, hdf, hlo, hhi⟩)
    · obtain ⟨e, he, hef, hle, hst, hne⟩ := hcover d hd hdf
      by_cases hdc : d = c
      · subst hdc
        refine .inr ⟨hm, _, mem_row.mpr (.inl rfl), hb, ?_, ?_⟩
        · show b.addr + headerSize ≤ d.addr
          unfold Block.stop at hca
          omega
        · unfold Block.stop at *
          show _ ≤ b.addr + headerSize + (b.size + (headerSize + d.size))
          omega
      · exact .inl ⟨e, he, hef, hne hdc⟩
    · obtain ⟨e, he, hef, hle, hst, -⟩ := hcover d hd hdf
      refine .inr ⟨?_, e, he, hef, by omega, by omega⟩
      rw [ht.get_eq, hma]
      exact fun i hi hi' => hl.inside_notMem hd (by omega) (by omega)

theorem exists_first_free (h : freeAddrs bs ≠ []) :
    ∃ mid b rest, bs = mid ++ b :: rest ∧ (∀ c ∈ mid, c.free = false) ∧ b.free = true ∧
      freeAddrs bs = b.addr :: freeAddrs rest := by
  induction bs with
  | nil => exact absurd rfl h
  | cons b bs ih =>
    rw [freeAddrs_cons] at h
    by_cases hb : b.free = true
    · exact ⟨[], b, bs, rfl, by simp, hb, by rw [freeAddrs_cons, if_pos hb]⟩
    · rw [if_neg hb] at h
      obtain ⟨mid, c, rest, rfl, hmid, hc, hfs⟩ := ih h
      refine ⟨b :: mid, c, rest, rfl, ?_, hc, by rw [freeAddrs_cons, if_neg hb, hfs]⟩
      exact forall_mem_cons.mpr ⟨by simpa using hb, hmid⟩

/-- What the walk makes of a row: two free neighbours become one block, and the walk goes on
behind them. -/
def mergePairs : List Block → List Block
  | [] => []
  | [b] => [b]
  | b :: c :: rest =>
    if b.free ∧ c.free then { b with size := b.size + (headerSize + c.size) } :: mergePairs rest
    else b :: mergePairs (c :: rest)

theorem mergePairs_cons_live (hb : b.free = false) (rest : List Block) :
    mergePairs (b :: rest) = b :: mergePairs rest := by
  cases rest with
  | nil => rfl
  | cons c rest => rw [mergePairs, if_neg (by simp [hb])]

theorem mergePairs_append_live {mid : List Block} (hmid : ∀ b ∈ mid, b.free = false)
    (rest : List Block) : mergePairs (mid ++ rest) = mid ++ mergePairs rest := by
  induction mid with
  | nil => rfl
  | cons b mid ih =>
    rw [cons_append, mergePairs_cons_live (hmid b mem_cons_self),
      ih fun c hc => hmid c (mem_cons_of_mem b hc), cons_append]

theorem live_of_freeAddrs (h : freeAddrs bs = []) : ∀ b ∈ bs, b.free = false := by
  intro b hb
  by_contra hfree
  have hmem : b.addr ∈ freeAddrs bs := mem_freeAddrs.mpr ⟨b, hb, by simpa using hfree, rfl⟩
  rw [h] at hmem
  cases hmem

theorem mergePairs_eq_self (h : freeAddrs bs = []) : mergePairs bs = bs := by
  simpa [mergePairs] using mergePairs_append_live (live_of_freeAddrs h) []

theorem coalesceFrom_merged :
    ∀ (n : ℕ) (h : Allocator) (pre post : List Block), Layout h (pre ++ post) →
      (freeAddrs post).length ≤ n →
      ∃ h', coalesceFrom n ((freeAddrs post).headD 0) h = .ok h' ∧
        Merged h (pre ++ post) h' (pre ++ mergePairs post) := by
  intro n
  induction n with
  | zero =>
    intro h pre post hl hn
    have hnil : freeAddrs post = [] := length_eq_zero_iff.mp (Nat.le_zero.mp hn)
    refine ⟨h, ?_, by rw [mergePairs_eq_self hnil]; exact .refl hl⟩
    rw [hnil]
    exact if_pos rfl
  | succ n ih =>
    intro h pre post hl hn
    by_cases hnil : freeAddrs post = []
    · refine ⟨h, ?_, by rw [mergePairs_eq_self hnil]; exact .refl hl⟩
      rw [hnil]
      exact if_pos rfl
    · obtain ⟨mid, b, rest, rfl, hmid, hb, hfs⟩ := exists_first_free hnil
      rw [hfs, length_cons] at hn
      rw [mergePairs_append_live hmid, ← append_assoc pre mid (mergePairs _)]
      rw [← append_assoc] at hl ⊢
      have hbm : b ∈ pre ++ mid ++ b :: rest := by simp
      have hvalid := hl.validateBlockFast_eq hbm
      have hstep : coalesceFrom (n + 1) ((freeAddrs (mid ++ b :: rest)).headD 0) h =
          coalesceFrom n ((h.tryMergeWithNext b.addr).get b.addr .next)
            (h.tryMergeWithNext b.addr) := by
        rw [hfs, headD_cons, coalesceFrom, if_neg (hl.addr_ne hbm)]
        simp [hvalid]
      rw [hstep]
      by_cases hmerge : ∃ c post', rest = c :: post' ∧ c.free = true
      · -- the right neighbour is free
        obtain ⟨c, post', rfl, hc⟩ := hmerge
        have hm := Merged.absorb hl hb hc
        have hl' := hm.layout
        have hnext := hl'.next_eq hb
        rw [freeAddrs_cons, if_pos hc, length_cons] at hn
        rw [append_cons] at hl'
        obtain ⟨h', hrun, hm'⟩ := ih _ _ post' hl' (by omega)
        rw [← append_cons, ← append_cons] at hm'
        refine ⟨h', by rw [hnext, hrun], ?_⟩
        rw [mergePairs, if_pos ⟨hb, hc⟩]
        exact hm.trans hm'
      · -- nothing to merge here
        have hstay : mergePairs (b :: rest) = b :: mergePairs rest := by
          cases rest with
          | nil => rfl
          | cons c post' =>
            rw [mergePairs, if_neg fun hc => hmerge ⟨c, post', rfl, hc.2⟩]
        have hself := hl.tryMergeWithNext_eq_self hb fun c post' hrest => by
          by_contra hc
          exact hmerge ⟨c, post', hrest, by simpa using hc⟩
        rw [hself, hl.next_eq hb, hstay]
        rw [append_cons] at hl ⊢
        rw [append_cons _ b (mergePairs rest)]
        exact ih h _ rest hl (by omega)

/-- **Coalescing** a well-formed heap never reaches one of its `PANIC`s. -/
theorem coalesce_merged (hl : Layout h bs) :
    ∃ h', h.coalesce = .ok h' ∧ Merged h bs h' (mergePairs bs) := by
  have := coalesceFrom_merged h.maxVisits h [] bs hl hl.freeAddrs_le_maxVisits
  rw [← hl.list.head] at this
  exact this

end MinimalOS.Heap
