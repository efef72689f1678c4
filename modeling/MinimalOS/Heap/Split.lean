import MinimalOS.Heap.Layout

/-!
# Using a free block

`split_and_use` takes the first `need` bytes of a free block. What is left becomes a free block
of its own, in the place of the old one on the free list, if it can hold a header and a smallest
payload; otherwise the whole block is used.
-/

namespace MinimalOS.Heap

open ByteMem LinkedChain Allocator

attribute [local irreducible] Allocator.get readLE

/-- The block taken from the free block `b` for `need` bytes. -/
def usedBlock (b : Block) (need : ℕ) : Block :=
  if headerSize + minBlockSize ≤ b.size - need then ⟨b.addr, need, false⟩
  else { b with free := false }

/-- What is left of `b`. -/
def restRow (b : Block) (need : ℕ) : List Block :=
  if headerSize + minBlockSize ≤ b.size - need then
    [⟨b.addr + headerSize + need, b.size - need - headerSize, true⟩]
  else []

def Block.bytes (b : Block) : Set ℕ := {i | b.addr ≤ i ∧ i < b.stop}

namespace Layout

variable {h : Allocator} {pre post : List Block} {b : Block}

theorem footer_eq_of_other {h' : Allocator} {c : Block} (hl : Layout h (pre ++ b :: post))
    (ht : Touches (headerBytes (addrs (pre ++ b :: post)) ∪ b.bytes) h h')
    (hc : c ∈ pre ++ post) : readLE h'.mem footerSize (c.stop - footerSize) = footerMagic := by
  have hcm : c ∈ pre ++ b :: post := mem_insert_mid [b] hc
  have hs := (hl.shape c hcm).1
  rw [ht.readLE_eq, (hl.describes c hcm).footer]
  intro i hi hi'
  have hlt : i < c.stop := by
    unfold Block.stop headerSize footerSize at *
    omega
  rintro (hmem | ⟨hbi, hbi'⟩)
  · exact hl.footer_notMem hcm hi hlt hmem
  · have := hl.tiles.apart hcm (by simp) (hl.tiles.addr_ne hc)
    unfold Block.stop footerSize minBlockSize at *
    omega

variable {need : ℕ}

theorem splitAndUse_whole (hl : Layout h (pre ++ b :: post)) (hb : b.free = true)
    (hneed : ¬headerSize + minBlockSize ≤ b.size - need) :
    Layout (h.splitAndUse b.addr need) (pre ++ { b with free := false } :: post) ∧
      Touches (headerBytes (addrs (pre ++ b :: post)) ∪ b.bytes) h
        (h.splitAndUse b.addr need) := by
  have hbm : b ∈ pre ++ b :: post := by simp
  have hbA := Block.addr_mem hbm
  have hbd := hl.describes b hbm
  have hshape := fun c hc => (hl.shape c hc).1
  have hfs : freeAddrs (pre ++ b :: post) = freeAddrs pre ++ ([b.addr] ++ freeAddrs post) := by
    rw [freeAddrs_append, freeAddrs_cons, if_pos hb]
    rfl
  have hlist := hl.list
  rw [hfs] at hlist
  have hp := hl.tiles.place hl.start_ne
  obtain ⟨hxm, hym⟩ := ends_mem (freeAddrs pre) (freeAddrs post)
  have hxb := hp.ne _ hxm
  obtain ⟨hx, hy⟩ := neighbours hp.sub
  have hprev := hl.prev_eq hb
  have hnext := hl.next_eq hb
  rw [splitAndUse_eq, hbd.size, if_neg hneed,
    removeFreeBlock_eq hl.apartOn hbA hprev hnext hx hxb]
  generalize hk : h.unlink b.addr ((freeAddrs pre).getLastD 0) ((freeAddrs post).headD 0) = k
  have hku : Touches (headerBytes (addrs (pre ++ b :: post))) h k := hk ▸ touches_unlink hbA hx hy
  have hfields : ∀ u ∈ addrs (pre ++ b :: post), k.get u .size = h.get u .size ∧
      k.get u .magic = h.get u .magic ∧ k.get u .free = if u = b.addr then 0 else h.get u .free :=
    fun u hu => hk ▸ unlink_fields hl.apartOn hl.fits hbA hx hy hu
  obtain ⟨hlink, hlink'⟩ := hk ▸ unlink_links hl.apartOn hl.fits hbA hx hy
  have hks : k.get b.addr .size = b.size := (hfields b.addr hbA).1.trans hbd.size
  obtain ⟨htc, hfoot⟩ := touches_claim hl.apartOn hbA hks
  have hget := fun u (hu : u ∈ addrs (pre ++ b :: post)) g =>
    claim_get hl.apartOn hbA hks (by
      have := hshape b hbm
      unfold minBlockSize at this
      unfold footerSize
      omega) (fun u hu => hl.tiles.footer_clear hshape hbm hu) hu g
  have ht : Touches (headerBytes (addrs (pre ++ b :: post)) ∪ b.bytes) h (k.claim b.addr) := by
    refine (hku.mono Set.subset_union_left).trans (htc.mono (Set.union_subset_union_right _ ?_))
    rintro i ⟨hi, hi'⟩
    refine ⟨?_, hi'⟩
    unfold headerSize footerSize at *
    omega
  refine ⟨hl.of_touches ht (hl.tiles.setFree false) ?_ ?_ ?_, ht⟩
  · intro c hc
    rcases mem_row.mp hc with rfl | hc
    · exact hl.shape b hbm
    · exact hl.shape c (mem_insert_mid [b] hc)
  · intro c hc
    rcases mem_row.mp hc with rfl | hc
    · refine ⟨?_, ?_, ?_, hfoot⟩
      · rw [hget _ hbA, if_neg (by simp)]
        exact hks
      · rw [hget _ hbA, if_neg (by simp), (hfields _ hbA).2.1, hbd.magic]
      · rw [hget _ hbA, if_pos (by simp)]
        rfl
    · have hcm : c ∈ pre ++ b :: post := mem_insert_mid [b] hc
      have hcA := Block.addr_mem hcm
      have hcb := hl.tiles.addr_ne hc
      have hcd := hl.describes c hcm
      obtain ⟨hs, hm, hf⟩ := hfields _ hcA
      rw [if_neg hcb] at hf
      refine ⟨?_, ?_, ?_, hl.footer_eq_of_other ht hc⟩
      · rw [hget _ hcA, if_neg (by simp), hs, hcd.size]
      · rw [hget _ hcA, if_neg (by simp), hm, hcd.magic]
      · rw [hget _ hcA, if_neg (by simp [hcb]), hf, hcd.free]
  · rw [freeAddrs_append, freeAddrs_cons]
    have hn : ∀ u, (u ≠ 0 → u ∈ addrs (pre ++ b :: post)) → u ≠ b.addr →
        (k.claim b.addr).nextOf u =
          if u = (freeAddrs pre).getLastD 0 then (freeAddrs post).headD 0 else h.nextOf u := by
      intro u hu hub
      rw [nextOf_congr (claim_head k b.addr) fun h0 => by rw [hget _ (hu h0), if_neg (by simp [hub])],
        hlink u hu hub]
    have hq : ∀ u ∈ addrs (pre ++ b :: post), u ≠ b.addr → (k.claim b.addr).prevOf u =
        if u = (freeAddrs post).headD 0 then (freeAddrs pre).getLastD 0 else h.prevOf u := by
      intro u hu hub
      rw [← hlink' u hu hub]
      unfold prevOf
      rw [hget _ hu, if_neg (by simp [hub])]
    have hmemA : ∀ u ∈ 0 :: (freeAddrs pre ++ freeAddrs post), u ≠ 0 → u ∈ addrs _ :=
      fun u hu h0 => hp.sub u ((List.mem_cons.mp hu).resolve_left h0)
    refine FreeList.splice (freeAddrs pre) [b.addr] [] (freeAddrs post) hlist hp.nodup ?_ ?_ ?_
    · intro u hu hux
      rw [hn u (hmemA u hu) (hp.ne u hu), if_neg hux]
    · intro u hu huy
      rw [hq u (hp.sub u hu) (hp.ne u (List.mem_cons_of_mem _ hu)), if_neg huy]
    · refine List.isChain_cons_cons.mpr ⟨⟨?_, fun h0 => ?_⟩, .singleton _⟩
      · rw [hn _ hx hxb, if_pos rfl]
      · rw [hq _ (hy h0) (hp.ne _ hym), if_pos rfl]

theorem tiles_split {s e : ℕ} (ht : Tiles s (pre ++ b :: post) e)
    (hneed : headerSize + minBlockSize ≤ b.size - need) :
    Tiles s (pre ++ ⟨b.addr, need, false⟩ ::
      ⟨b.addr + headerSize + need, b.size - need - headerSize, true⟩ :: post) e := by
  obtain ⟨m, h₁, h₂, h₃⟩ := tiles_append.mp ht
  refine tiles_append.mpr ⟨m, h₁, h₂, rfl, ?_⟩
  rw [show Block.stop ⟨b.addr + headerSize + need, b.size - need - headerSize, true⟩ = b.stop by
    unfold Block.stop headerSize at *
    show b.addr + 32 + need + 32 + (b.size - need - 32) = _
    omega]
  exact h₃

section

variable (hl : Layout h (pre ++ b :: post)) (hb : b.free = true) (hmin : minBlockSize ≤ need)
  (halign : need % alignment = 0)

include hl hb hmin halign

theorem splitAndUse_split (hneed : headerSize + minBlockSize ≤ b.size - need) :
    Layout (h.splitAndUse b.addr need) (pre ++ ⟨b.addr, need, false⟩ ::
      ⟨b.addr + headerSize + need, b.size - need - headerSize, true⟩ :: post) ∧
      Touches (headerBytes (addrs (pre ++ b :: post)) ∪ b.bytes) h
        (h.splitAndUse b.addr need) := by
  generalize hu : (⟨b.addr, need, false⟩ : Block) = used
  generalize hr : (⟨b.addr + headerSize + need, b.size - need - headerSize, true⟩ : Block) = rest
  have hua : used.addr = b.addr := by rw [← hu]
  have hus : used.stop = b.addr + headerSize + need := by rw [← hu]; rfl
  have hra : rest.addr = b.addr + headerSize + need := by rw [← hr]
  have hrs : rest.size = b.size - need - headerSize := by rw [← hr]
  have htiles : Tiles h.heapStart (pre ++ used :: rest :: post) h.heapEnd := by
    rw [← hu, ← hr]
    exact tiles_split hl.tiles hneed
  have hbm : b ∈ pre ++ b :: post := by simp
  have hshape : ∀ c ∈ pre ++ used :: rest :: post,
      minBlockSize ≤ c.size ∧ c.size % alignment = 0 := by
    intro c hc
    have hbs := hl.shape b hbm
    rcases mem_row.mp hc with rfl | hc
    · rw [← hu]
      exact ⟨hmin, halign⟩
    · rcases mem_row.mp hc with rfl | hc
      · unfold headerSize alignment at *
        omega
      · exact hl.shape c (mem_insert_mid [b] hc)
  have hA := htiles.apartOn hl.start_ne
  have hfits := htiles.fits hl.end_lt
  have huA : b.addr ∈ addrs (pre ++ used :: rest :: post) :=
    hua ▸ Block.addr_mem (by simp)
  have hrA : rest.addr ∈ addrs (pre ++ used :: rest :: post) := Block.addr_mem (by simp)
  have hbd := hl.describes b hbm
  -- the place of `b` on the list is that of `rest` in the new row
  have hfs : freeAddrs (pre ++ b :: post) = freeAddrs pre ++ ([b.addr] ++ freeAddrs post) := by
    rw [freeAddrs_append, freeAddrs_cons, if_pos hb]
    rfl
  have hpre : freeAddrs (pre ++ [used]) = freeAddrs pre := by
    rw [freeAddrs_append, freeAddrs_cons, if_neg (by simp [← hu])]
    simp [freeAddrs, freeBlocks]
  have hrow : pre ++ used :: rest :: post = (pre ++ [used]) ++ rest :: post := by simp
  have hp := hl.tiles.place hl.start_ne
  have hq : Place (pre ++ [used]) post rest := (hrow ▸ htiles).place hl.start_ne
  have hsubA : ∀ u ∈ freeAddrs pre ++ freeAddrs post, u ∈ addrs (pre ++ used :: rest :: post) := by
    have := hq.sub
    rw [hpre, ← hrow] at this
    exact this
  have hner : ∀ u ∈ 0 :: (freeAddrs pre ++ freeAddrs post), u ≠ rest.addr := by
    have := hq.ne
    rwa [hpre] at this
  have hlist := hl.list
  rw [hfs] at hlist
  obtain ⟨hxm, hym⟩ := ends_mem (freeAddrs pre) (freeAddrs post)
  obtain ⟨hx, hy⟩ := neighbours hsubA
  have hprev := hl.prev_eq hb
  have hnext := hl.next_eq hb
  have hclear := fun c hc u => htiles.footer_clear (fun d hd => (hshape d hd).1) (b := c) hc (u := u)
  have hfoot : ∀ u ∈ addrs (pre ++ used :: rest :: post), rest.addr + headerSize + rest.size ≤ u ∨
      u + headerSize ≤ rest.addr + headerSize + rest.size - footerSize :=
    fun u hu => hclear rest (by simp) u hu
  have hS : SplitSite (addrs (pre ++ used :: rest :: post)) b.addr rest.addr need rest.size
      ((freeAddrs pre).getLastD 0) ((freeAddrs post).headD 0) := by
    have hbs := hl.stop_le hbm
    have hend := hl.end_lt
    have hlt : ∀ v, v ≤ b.size → Fits .size v := by
      intro v hv
      show v < 256 ^ 8
      unfold Block.stop at hbs
      omega
    refine ⟨hA, hfits, huA, hrA, ?_, hlt _ ?_, hlt _ ?_, ?_, ?_, hfoot, ?_, hx, hy,
      fits_of_mem hfits hx, fits_of_mem hfits hy⟩
    all_goals unfold headerSize footerSize minBlockSize at *
    · omega
    · omega
    · omega
    · omega
    · omega
    · intro u hu
      rw [← hus]
      exact hclear used (by simp) u hu
  have heq := splitAndUse_eq_claim hA hfits huA hrA hra (by rw [hbd.size]; exact hneed)
    (by rw [hbd.size]; exact hrs) hfoot hprev hnext hx (hp.ne _ hxm)
  obtain ⟨ht, hfoot₁, hfoot₂⟩ := hS.touches (by
    refine Set.eq_empty_of_forall_notMem ?_
    rintro i ⟨⟨hi, -⟩, -, hi'⟩
    unfold footerSize minBlockSize at *
    omega)
  have ht' : Touches (headerBytes (addrs (pre ++ b :: post)) ∪ b.bytes) h
      (h.splitOff b.addr rest.addr need rest.size ((freeAddrs pre).getLastD 0)
        ((freeAddrs post).headD 0)) := by
    refine ht.mono ?_
    have hin : ∀ i, b.addr ≤ i → i < b.addr + headerSize + need + headerSize + rest.size →
        i ∈ b.bytes := by
      intro i hi hi'
      refine ⟨hi, ?_⟩
      unfold Block.stop minBlockSize at *
      omega
    rintro i (⟨u, ⟨c, hc, rfl⟩, hci, hci'⟩ | ⟨hi, hi'⟩ | ⟨hi, hi'⟩)
    · rcases mem_row.mp hc with rfl | hc
      · exact .inr (hin i (by omega) (by omega))
      · rcases mem_row.mp hc with rfl | hc
        · exact .inr (hin i (by omega) (by omega))
        · exact .inl ⟨c.addr, Block.addr_mem (mem_insert_mid [b] hc), hci, hci'⟩
    · refine .inr (hin i ?_ (by omega))
      unfold headerSize footerSize at *
      omega
    · refine .inr (hin i ?_ (by omega))
      unfold headerSize footerSize at *
      omega
  have hfields := fun u hu => hS.fields (h := h) (u := u) hu
  obtain ⟨hlink, hlink'⟩ := hS.links
  rw [heq]
  generalize h.splitOff b.addr rest.addr need rest.size ((freeAddrs pre).getLastD 0)
        ((freeAddrs post).headD 0) = k at *
  refine ⟨hl.of_touches ht' htiles hshape ?_ ?_, ht'⟩
  · intro c hc
    rcases mem_row.mp hc with rfl | hc
    · obtain ⟨hs, hm, hf⟩ := hfields b.addr huA
      rw [if_pos rfl] at hs hf
      rw [if_neg hS.ne, hbd.magic] at hm
      refine ⟨?_, ?_, ?_, ?_⟩
      · rw [hua, hs, ← hu]
      · rw [hua, hm]
      · rw [hua, hf, ← hu]
        rfl
      · rw [hus]
        exact hfoot₁
    · rcases mem_row.mp hc with rfl | hc
      · obtain ⟨hs, hm, hf⟩ := hfields c.addr hrA
        rw [if_neg hS.ne.symm, if_pos rfl] at hs hf
        rw [if_pos rfl] at hm
        refine ⟨hs, hm, ?_, hfoot₂⟩
        rw [hf, ← hr]
        rfl
      · have hcm : c ∈ pre ++ b :: post := mem_insert_mid [b] hc
        have hcA : c.addr ∈ addrs (pre ++ used :: rest :: post) :=
          Block.addr_mem (mem_insert_mid [used, rest] hc)
        have hcb := hl.tiles.addr_ne hc
        have hcr : c.addr ≠ rest.addr := by
          refine (hrow ▸ htiles).addr_ne ?_
          rw [List.append_assoc]
          exact mem_insert_mid [used] hc
        have hcd := hl.describes c hcm
        obtain ⟨hs, hm, hf⟩ := hfields c.addr hcA
        rw [if_neg hcb, if_neg hcr] at hs hf
        rw [if_neg hcr] at hm
        exact ⟨hs.trans hcd.size, hm.trans hcd.magic, hf.trans hcd.free,
          hl.footer_eq_of_other ht' hc⟩
  · have hrf : rest.free = true := by rw [← hr]
    rw [hrow, freeAddrs_append, hpre, freeAddrs_cons, if_pos hrf]
    refine FreeList.splice (freeAddrs pre) [b.addr] [rest.addr] (freeAddrs post) hlist hp.nodup ?_
      ?_ ?_
    · intro u hu hux
      rw [hlink u (fun h0 => hsubA u ((List.mem_cons.mp hu).resolve_left h0)) (hp.ne u hu),
        if_neg hux, if_neg (hner u hu)]
    · intro u hu huy
      have hu' := List.mem_cons_of_mem 0 hu
      rw [hlink' u (hsubA u hu) (hp.ne u hu'), if_neg huy, if_neg (hner u hu')]
    · refine List.isChain_cons_cons.mpr ⟨⟨?_, fun _ => ?_⟩, List.isChain_cons_cons.mpr
        ⟨⟨?_, fun h0 => ?_⟩, .singleton _⟩⟩
      · rw [hlink _ hx (hp.ne _ hxm), if_pos rfl]
      · rw [hlink' _ hrA hS.ne.symm, if_neg (hner _ hym).symm, if_pos rfl]
      · rw [hlink _ (fun _ => hrA) hS.ne.symm, if_neg (hner _ hxm).symm, if_pos rfl]
      · rw [hlink' _ (hy h0) (hp.ne _ hym), if_pos rfl]

theorem splitAndUse :
    Layout (h.splitAndUse b.addr need) (pre ++ usedBlock b need :: (restRow b need ++ post)) ∧
      Touches (headerBytes (addrs (pre ++ b :: post)) ∪ b.bytes) h
        (h.splitAndUse b.addr need) := by
  unfold usedBlock restRow
  split_ifs with hneed
  · exact hl.splitAndUse_split hb hmin halign hneed
  · exact hl.splitAndUse_whole hb hneed

end

end Layout

end MinimalOS.Heap
