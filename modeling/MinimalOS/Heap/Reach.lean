import MinimalOS.Heap.Client

/-!
# Neighbours and the free counter

What holds of every heap that proper calls can make of a region. `coalesce` lets a free block take
over its right neighbour once and goes on behind both, so of three free neighbours the third stays
a block of its own. `total_free` counts the payload of what is freed and used, but not the headers
that splits make and merges absorb: it is off by one header for each block but the first.
-/

namespace MinimalOS.Heap

open ByteMem LinkedChain Allocator List

attribute [local irreducible] Allocator.get readLE

def Reachable (c : Client) : Prop :=
  ∃ m memory size h ops, Region memory size ∧ allocatorInit m memory size = .ok h ∧
    (Client.start h).ProperRun ops ∧ (Client.start h).run ops = .ok c

variable {c : Client} {h : Allocator} {s e : ℕ} {bs : List Block}

theorem Reachable.inv (hc : Reachable c) : ∃ bs, c.Inv bs := by
  obtain ⟨m, memory, size, h, ops, hregion, hinit, hops, hrun⟩ := hc
  obtain ⟨c', bs, hrun', hi⟩ := (hregion.inv hinit).run hops
  obtain rfl : c' = c := Except.ok.inj (hrun'.symm.trans hrun)
  exact ⟨bs, hi⟩

/-! ## The headers of a heap -/

theorem HeadersTile.le {bs : List ℕ} (ht : HeadersTile h s bs e) : s ≤ e := by
  induction bs generalizing s with
  | nil => exact le_of_eq ht
  | cons b bs ih =>
    have hle := ih ht.2
    have hb := ht.1
    omega

/-- The headers are found from the start of the heap, each by the size of the one before. -/
theorem HeadersTile.unique {bs bs' : List ℕ} (ht : HeadersTile h s bs e)
    (ht' : HeadersTile h s bs' e) : bs = bs' := by
  induction bs generalizing s bs' with
  | nil =>
    cases bs' with
    | nil => rfl
    | cons b bs' =>
      have hle := ht'.2.le
      have hb := ht'.1
      have hs : s = e := ht
      unfold headerSize at hle
      omega
  | cons b bs ih =>
    cases bs' with
    | nil =>
      have hle := ht.2.le
      have hb := ht.1
      have hs : s = e := ht'
      unfold headerSize at hle
      omega
    | cons b' bs' =>
      obtain rfl : b = b' := ht.1.trans ht'.1.symm
      rw [ih ht.2 ht'.2]

/-! ## Three neighbours -/

/-- Three neighbours of a list have the property. -/
def ThreeInRow {α : Type*} (p : α → Prop) : List α → Prop
  | a :: b :: c :: rest => p a ∧ p b ∧ p c ∨ ThreeInRow p (b :: c :: rest)
  | _ => False

theorem threeInRow_map {α β : Type*} {p : β → Prop} {q : α → Prop} {f : α → β} {l : List α}
    (h : ∀ a ∈ l, (p (f a) ↔ q a)) : ThreeInRow p (l.map f) ↔ ThreeInRow q l := by
  induction l using ThreeInRow.induct with
  | case1 a b c rest ih =>
    refine or_congr ?_ (ih fun x hx => h x (mem_cons_of_mem a hx))
    rw [h a (by simp), h b (by simp), h c (by simp)]
  | case2 l hl =>
    match l with
    | [] => exact .rfl
    | [a] => exact .rfl
    | [a, b] => exact .rfl
    | a :: b :: c :: rest => exact absurd rfl (hl a b c rest)

theorem threeInRow_cons {α : Type*} {p : α → Prop} {a b : α} (h : ¬ (p a ∧ p b))
    (rest : List α) : ThreeInRow p (a :: b :: rest) ↔ ThreeInRow p (b :: rest) := by
  cases rest with
  | nil => exact .rfl
  | cons c rest => exact or_iff_right fun habc => h ⟨habc.1, habc.2.1⟩

/-- Not both free. -/
def Apart (b c : Block) : Prop := ¬ (b.free ∧ c.free)

theorem mergePairs_head (b : Block) (bs : List Block) :
    ∃ b' bs', mergePairs (b :: bs) = b' :: bs' ∧ b'.free = b.free := by
  cases bs with
  | nil => exact ⟨b, [], rfl, rfl⟩
  | cons c rest =>
    rw [mergePairs]
    split_ifs
    · exact ⟨_, _, rfl, rfl⟩
    · exact ⟨_, _, rfl, rfl⟩

theorem isChain_mergePairs_iff (bs : List Block) :
    (mergePairs bs).IsChain Apart ↔ ¬ ThreeInRow (fun b => b.free = true) bs := by
  induction bs using mergePairs.induct with
  | case1 => exact iff_of_true isChain_nil not_false
  | case2 b => exact iff_of_true (isChain_singleton b) not_false
  | case3 b c rest hbc ih =>
    rw [mergePairs, if_pos hbc]
    cases rest with
    | nil => exact iff_of_true (isChain_singleton _) not_false
    | cons d rest =>
      obtain ⟨d', bs', hmerge, hfree⟩ := mergePairs_head d rest
      rw [hmerge] at ih ⊢
      rw [isChain_cons_cons, ih]
      by_cases hd : d.free = true
      · -- the third one stays
        refine iff_of_false (fun h => h.1 ⟨hbc.1, hfree.trans hd⟩) (not_not.mpr ?_)
        exact .inl ⟨hbc.1, hbc.2, hd⟩
      · have hapart : Apart { b with size := b.size + (headerSize + c.size) } d' :=
          fun h => hd (hfree.symm.trans h.2)
        rw [and_iff_right hapart, ← threeInRow_cons (a := c) (fun h => hd h.2)]
        exact not_congr (or_iff_right fun h => hd h.2.2).symm
  | case4 b c rest hbc ih =>
    obtain ⟨c', bs', hmerge, hfree⟩ := mergePairs_head c rest
    rw [mergePairs, if_neg hbc]
    rw [hmerge] at ih ⊢
    have hapart : Apart b c' := fun h => hbc ⟨h.1, hfree.symm.trans h.2⟩
    rw [isChain_cons_cons, and_iff_right hapart, ih, threeInRow_cons hbc]

/-! ## After `free_mem` -/

def Coalesced (h : Allocator) : Prop :=
  ∃ bs, HeadersTile h h.heapStart bs h.heapEnd ∧
    bs.IsChain fun a b => ¬ (h.isFree a ∧ h.isFree b)

/-- Three neighbouring blocks of the heap are free, or would be with the block at `b`. -/
def ThreeFree (h : Allocator) (b : ℕ) : Prop :=
  ∃ bs, HeadersTile h h.heapStart bs h.heapEnd ∧ ThreeInRow (fun a => h.isFree a ∨ a = b) bs

theorem Layout.headersTile_unique (hl : Layout h bs) {as : List ℕ}
    (ht : HeadersTile h h.heapStart as h.heapEnd) : as = bs.map (·.addr) :=
  ht.unique (Layout.headersTile hl.tiles hl.describes)

theorem Layout.coalesced_iff (hl : Layout h bs) : Coalesced h ↔ bs.IsChain Apart := by
  have hchain : (bs.map (·.addr)).IsChain (fun a b => ¬ (h.isFree a ∧ h.isFree b)) ↔
      bs.IsChain Apart := by
    rw [isChain_map]
    refine List.IsChain.iff_of_mem_imp fun b c hb hc => ?_
    rw [hl.isFree_eq hb, hl.isFree_eq hc]
    rfl
  constructor
  · rintro ⟨as, ht, has⟩
    rw [hl.headersTile_unique ht] at has
    exact hchain.mp has
  · exact fun h => ⟨_, Layout.headersTile hl.tiles hl.describes, hchain.mpr h⟩

theorem Layout.threeFree_iff {pre post : List Block} {b : Block}
    (hl : Layout h (pre ++ b :: post)) : ThreeFree h b.addr ↔
      ThreeInRow (fun d => d.free = true) (pre ++ { b with free := true } :: post) := by
  have hmap : (pre ++ b :: post).map (·.addr) =
      (pre ++ { b with free := true } :: post).map (·.addr) := by
    simp
  have hthree : ThreeInRow (fun a => h.isFree a ∨ a = b.addr) ((pre ++ b :: post).map (·.addr)) ↔
      ThreeInRow (fun d => d.free = true) (pre ++ { b with free := true } :: post) := by
    rw [hmap]
    refine threeInRow_map fun d hd => ?_
    rcases mem_row.mp hd with rfl | hd
    · exact iff_of_true (.inr rfl) rfl
    · rw [hl.isFree_eq (mem_insert_mid [b] hd)]
      exact or_iff_left (hl.tiles.addr_ne hd)
  constructor
  · rintro ⟨as, ht, has⟩
    rw [hl.headersTile_unique ht] at has
    exact hthree.mp has
  · exact fun h => ⟨_, Layout.headersTile hl.tiles hl.describes, hthree.mpr h⟩

/-- **Merging.** After `free_mem` of a live block no two neighbours are free exactly when the block
did not make three free neighbours. -/
theorem freeMem_coalesced_iff {c : Client} (hc : Reachable c) {ptr : ℕ} (hptr : ptr ∈ c.live) :
    ∃ h', freeMem c.heap ptr = .ok h' ∧
      (Coalesced h' ↔ ¬ ThreeFree c.heap (ptr - headerSize)) := by
  obtain ⟨bs, hi⟩ := hc.inv
  obtain ⟨b, hb, rfl⟩ := (hi.live ptr).mp hptr
  obtain ⟨hbm, hbf⟩ := mem_liveBlocks.mp hb
  obtain ⟨pre, post, rfl⟩ := append_of_mem hbm
  obtain ⟨h', bs', hrun, rfl, hr', -⟩ := freeMem_live hi.rep hbf
  refine ⟨h', hrun, ?_⟩
  rw [Nat.add_sub_cancel, hr'.layout.coalesced_iff, hi.rep.layout.threeFree_iff,
    isChain_mergePairs_iff]

def pageHeap : Allocator := freshHeap (fun _ => 0) 0x1000 4096

theorem allocatorInit_page : allocatorInit (fun _ => 0) 0x1000 4096 = .ok pageHeap :=
  allocatorInit_eq _ (by norm_num) (by norm_num) (by norm_num)

theorem reachable_page {ops : List Op} (hops : (Client.start pageHeap).ProperRun ops) :
    ∃ c, (Client.start pageHeap).run ops = .ok c ∧ Reachable c := by
  have hregion : Region 0x1000 4096 := ⟨by norm_num, by norm_num, by norm_num, by decide⟩
  obtain ⟨c, bs, hrun, -⟩ := (hregion.inv allocatorInit_page).run hops
  exact ⟨c, hrun, _, _, _, _, ops, hregion, allocatorInit_page, hops, hrun⟩

theorem reachable_pageAlloc : ∃ c, (Client.start pageHeap).run [.alloc 1] = .ok c ∧ Reachable c :=
  reachable_page ⟨show 1 + 19 < 2 ^ 64 by norm_num, fun _ _ => trivial⟩

theorem headersTile_page (hrun : (Client.start pageHeap).run [.alloc 1] = .ok c) :
    c.live = [0x1020] ∧ HeadersTile c.heap c.heap.heapStart [0x1000, 0x1050] c.heap.heapEnd := by
  have heval : ((Client.start pageHeap).run [.alloc 1]).map (fun c =>
      (c.live, c.heap.heapStart, c.heap.heapEnd, c.heap.get 0x1000 .size, c.heap.get 0x1050 .size)) =
      .ok ([0x1020], 0x1000, 0x2000, 48, 3984) := by
    decide +kernel
  rw [hrun] at heval
  obtain ⟨hlive, hstart, hend, hfirst, hsecond⟩ : _ ∧ _ ∧ _ ∧ _ ∧ _ := by
    simpa [Except.map] using heval
  refine ⟨hlive, ?_⟩
  rw [hstart, hend]
  refine ⟨rfl, ?_⟩
  rw [hfirst]
  refine ⟨rfl, ?_⟩
  rw [hsecond]
  rfl

theorem freeMem_coalesced_page : ∃ c, (Client.start pageHeap).run [.alloc 1] = .ok c ∧
    ∃ h', freeMem c.heap 0x1020 = .ok h' ∧ Coalesced h' := by
  obtain ⟨c, hrun, hc⟩ := reachable_pageAlloc
  obtain ⟨hlive, htile⟩ := headersTile_page hrun
  have hptr : 0x1020 ∈ c.live := by simp [hlive]
  obtain ⟨h', hfree, hiff⟩ := freeMem_coalesced_iff hc hptr
  refine ⟨c, hrun, h', hfree, hiff.mpr ?_⟩
  rintro ⟨as, has, hthree⟩
  rw [has.unique htile] at hthree
  exact hthree

/-- Of three free neighbours the third one stays apart. -/
theorem three_free_neighbours :
    (do
      let h ← allocatorInit (fun _ => 0) 0x1000 4096
      let c ← (Client.start h).run [.alloc 1, .alloc 1, .alloc 1, .alloc 1, .freeMem 0x1020,
        .freeMem 0x10C0]
      let h ← freeMem c.heap 0x1070
      pure (decide (0x1070 ∈ c.live), [0x1000, 0x10A0].map fun b =>
        (h.isFree b, b + headerSize + h.get b .size)) : Except Stop _) =
      .ok (true, [(true, 0x10A0), (true, 0x10F0)]) := by
  decide +kernel

/-! ## The free counter -/

/-- **The free counter** is the size of the blocks on the free list exactly when the heap is one
block. -/
theorem totalFree_iff {c : Client} (hc : Reachable c) :
    ∃ bs, HeapOk c bs ∧
      (c.heap.totalFree = ((bs.filter c.heap.isFree).map fun b => c.heap.get b .size).sum ↔
        bs.length = 1) := by
  obtain ⟨bs, hi⟩ := hc.inv
  have hl := hi.rep.layout
  refine ⟨_, hi.heapOk, ?_⟩
  have hsum : (((bs.map (·.addr)).filter c.heap.isFree).map fun b => c.heap.get b .size).sum =
      freeSize bs := by
    rw [hl.filter_isFree]
    unfold freeAddrs
    rw [map_map]
    congr 1
    exact map_congr_left fun b hb => (hl.describes b (mem_of_mem_filter hb)).size
  have hfree := hi.rep.free
  rw [length_map]
  unfold headerSize at hfree
  omega

theorem headersTile_freed (hrun : (Client.start pageHeap).run [.alloc 1, .freeMem 0x1020] = .ok c) :
    HeadersTile c.heap c.heap.heapStart [0x1000] c.heap.heapEnd := by
  have heval : ((Client.start pageHeap).run [.alloc 1, .freeMem 0x1020]).map (fun c =>
      (c.heap.heapStart, c.heap.heapEnd, c.heap.get 0x1000 .size)) = .ok (0x1000, 0x2000, 4064) := by
    decide +kernel
  rw [hrun] at heval
  obtain ⟨hstart, hend, hsize⟩ : _ ∧ _ ∧ _ := by
    simpa [Except.map] using heval
  rw [hstart, hend]
  refine ⟨rfl, ?_⟩
  rw [hsize]
  rfl

/-- The block is split for an allocation and merged again when it is freed. -/
theorem totalFree_page : ∃ c bs,
    (Client.start pageHeap).run [.alloc 1, .freeMem 0x1020] = .ok c ∧ HeapOk c bs ∧
    c.heap.totalFree = ((bs.filter c.heap.isFree).map fun b => c.heap.get b .size).sum := by
  have hops : (Client.start pageHeap).ProperRun [.alloc 1, .freeMem 0x1020] := by
    refine ⟨show 1 + 19 < 2 ^ 64 by norm_num, fun c' hstep => ⟨.inr (.inl ?_), fun _ _ => trivial⟩⟩
    have hrun : (Client.start pageHeap).run [.alloc 1] = .ok c' := by
      rw [Client.run, hstep]
      rfl
    rw [(headersTile_page hrun).1]
    exact mem_singleton_self _
  obtain ⟨c, hrun, hc⟩ := reachable_page hops
  obtain ⟨bs, hok, hiff⟩ := totalFree_iff hc
  refine ⟨c, bs, hrun, hok, hiff.mpr ?_⟩
  rw [hok.tiled.unique (headersTile_freed hrun)]
  rfl

/-- After one allocation the counter is a header ahead of the free list. -/
theorem totalFree_counts_header :
    (do
      let h ← allocatorInit (fun _ => 0) 0x1000 4096
      let c ← (Client.start h).run [.alloc 1]
      pure (c.heap.totalFree, c.heap.freeListHead, c.heap.get c.heap.freeListHead .size,
        c.heap.get c.heap.freeListHead .next) : Except Stop _) =
      .ok (4016, 0x1050, 3984, 0) := by
  decide +kernel

end MinimalOS.Heap
