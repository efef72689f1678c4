import MinimalOS.Heap.Calls

/-!
# Runs of the heap

A client calls the allocator in any order, stores into the payloads it holds, and frees pointers
the heap returned, a second time too as long as nothing was allocated in between. `Client.Inv`
holds after every such run: the heap describes a row of blocks of which the live ones are exactly
those the client holds. `HeapOk` reads that off as statements about the bytes of the heap.

The one thing a run can go wrong on is `allocator_init` itself: it checks the size of the region
before it cuts the region down to aligned addresses, so a region too small for one block passes.
-/

namespace MinimalOS.Heap

open ByteMem LinkedChain Allocator List

attribute [local irreducible] Allocator.get readLE

/-- What a client can do. `store` is the use of a payload between calls. -/
inductive Op where
  | alloc (size : ℕ)
  | allocUnzeroed (size : ℕ)
  | allocArray (count elemSize : ℕ)
  | allocResize (ptr newSize : ℕ)
  | freeMem (ptr : ℕ)
  | store (ptr : ℕ) (bytes : List UInt8)

/-- The heap, the pointers held, and those freed since the last allocation. -/
structure Client where
  heap : Allocator
  live : List ℕ
  freed : List ℕ

namespace Client

def start (h : Allocator) : Client := ⟨h, [], []⟩

def granted (c : Client) (r : ℕ × Allocator) : Client :=
  if r.1 = 0 then { c with heap := r.2 } else ⟨r.2, r.1 :: c.live, []⟩

def released (c : Client) (ptr : ℕ) (h : Allocator) : Client :=
  if ptr ∈ c.live then ⟨h, c.live.erase ptr, ptr :: c.freed⟩ else { c with heap := h }

/-- A pointer comes back from `alloc_resize` of a block. -/
def resized (c : Client) (ptr : ℕ) (r : ℕ × Allocator) : Client :=
  if r.1 = 0 ∨ r.1 = ptr then { c with heap := r.2 }
  else ⟨r.2, r.1 :: c.live.erase ptr, [ptr]⟩

def step (c : Client) : Op → Except Stop Client
  | .alloc size => (Heap.alloc c.heap size).map c.granted
  | .allocUnzeroed size => (Heap.allocUnzeroed c.heap size).map c.granted
  | .allocArray count elemSize => (Heap.allocArray c.heap count elemSize).map c.granted
  | .allocResize ptr newSize =>
    (Heap.allocResize c.heap ptr newSize).map
      (if ptr = 0 then c.granted
       else if newSize = 0 then fun r => c.released ptr r.2
       else c.resized ptr)
  | .freeMem ptr => (Heap.freeMem c.heap ptr).map (c.released ptr)
  | .store ptr bytes => .ok { c with heap := { c.heap with mem := store c.heap.mem ptr bytes } }

/-- The calls in scope: requests of at most the heap size, frees of pointers held or freed since
the last allocation, stores inside a payload held. -/
def Legal (c : Client) : Op → Prop
  | .alloc size => size ≤ c.heap.heapSize
  | .allocUnzeroed size => size ≤ c.heap.heapSize
  | .allocArray count elemSize => count * elemSize ≤ c.heap.heapSize
  | .allocResize ptr newSize =>
    newSize ≤ c.heap.heapSize ∧ (ptr = 0 ∨ ptr ∈ c.live ∨ newSize = 0 ∧ ptr ∈ c.freed)
  | .freeMem ptr => ptr = 0 ∨ ptr ∈ c.live ∨ ptr ∈ c.freed
  | .store ptr bytes =>
    ptr ∈ c.live ∧ bytes.length ≤ c.heap.get (ptr - headerSize) .size - footerSize

/-- The calls whose sizes the arithmetic of the allocator can hold: no sum of a size, a footer and
the slack of the alignment reaches 2⁶⁴. Products that do not fit are refused by `alloc_array`. -/
def Proper (c : Client) : Op → Prop
  | .alloc size => size + 19 < 2 ^ 64
  | .allocUnzeroed size => size + 19 < 2 ^ 64
  | .allocArray count elemSize => count * elemSize + 19 < 2 ^ 64 ∨ 2 ^ 64 ≤ count * elemSize
  | .allocResize ptr newSize =>
    newSize + 19 < 2 ^ 64 ∧ (ptr = 0 ∨ ptr ∈ c.live ∨ newSize = 0 ∧ ptr ∈ c.freed)
  | .freeMem ptr => ptr = 0 ∨ ptr ∈ c.live ∨ ptr ∈ c.freed
  | .store ptr bytes =>
    ptr ∈ c.live ∧ bytes.length ≤ c.heap.get (ptr - headerSize) .size - footerSize

def run : Client → List Op → Except Stop Client
  | c, [] => .ok c
  | c, op :: ops =>
    match c.step op with
    | .error e => .error e
    | .ok c' => run c' ops

def LegalRun : Client → List Op → Prop
  | _, [] => True
  | c, op :: ops => c.Legal op ∧ ∀ c', c.step op = .ok c' → LegalRun c' ops

def ProperRun : Client → List Op → Prop
  | _, [] => True
  | c, op :: ops => c.Proper op ∧ ∀ c', c.step op = .ok c' → ProperRun c' ops

/-! ## The invariant of a run -/

structure Inv (c : Client) (bs : List Block) : Prop where
  rep : Rep c.heap bs
  live : ∀ p, p ∈ c.live ↔ ∃ b ∈ liveBlocks bs, p = b.addr + headerSize
  nodup : c.live.Nodup
  freed : ∀ p ∈ c.freed, ∃ a, p = a + headerSize ∧ Stale c.heap bs a

variable {bs : List Block} {c : Client} {n ptr : ℕ} {h : Allocator} {b : Block}

theorem Inv.granted {bs' : List Block} {h' : Allocator} {d : Block} (hi : Inv c bs)
    (hg : Granted c.heap bs n h' bs' d) : Inv (c.granted (d.addr + headerSize, h')) bs' := by
  unfold Client.granted
  rw [if_neg (by unfold headerSize; omega)]
  refine ⟨hg.rep, fun p => ?_, ?_, by simp⟩
  · rw [mem_cons, hi.live]
    constructor
    · rintro (rfl | ⟨b, hb, rfl⟩)
      · exact ⟨d, (hg.live d).mpr (.inl rfl), rfl⟩
      · exact ⟨b, (hg.live b).mpr (.inr hb), rfl⟩
    · rintro ⟨b, hb, rfl⟩
      rcases (hg.live b).mp hb with rfl | hb
      · exact .inl rfl
      · exact .inr ⟨b, hb, rfl⟩
  · refine nodup_cons.mpr ⟨fun hmem => ?_, hi.nodup⟩
    obtain ⟨b, hb, heq⟩ := (hi.live _).mp hmem
    exact hg.new b hb (by omega)

theorem Inv.request (hi : Inv c bs) {r : Except Stop (ℕ × Allocator)}
    (hr : r = .ok (0, c.heap) ∨ ∃ h' bs' d, r = .ok (d.addr + headerSize, h') ∧
      Granted c.heap bs n h' bs' d) : ∃ c' bs', r.map c.granted = .ok c' ∧ Inv c' bs' := by
  rcases hr with rfl | ⟨h', bs', d, rfl, hg⟩
  · refine ⟨c, bs, ?_, hi⟩
    show Except.ok (c.granted (0, c.heap)) = _
    unfold Client.granted
    rw [if_pos rfl]
  · exact ⟨_, bs', rfl, hi.granted hg⟩

theorem alloc_request (hr : Rep h bs) (hn : n + 19 < 2 ^ 64) : alloc h n = .ok (0, h) ∨ ∃ h' bs' c,
      alloc h n = .ok (c.addr + headerSize, h') ∧ Granted h bs n h' bs' c :=
  (alloc_spec hr hn).imp_right fun ⟨h', bs', c, hrun, hg, _⟩ => ⟨h', bs', c, hrun, hg⟩

theorem mem_erase_live {live : List ℕ} {pre post : List Block} {s e : ℕ}
    (ht : Tiles s (pre ++ b :: post) e) (hb : b.free = false) (hnd : live.Nodup)
    (hlive : ∀ p, p ∈ live ↔ ∃ d ∈ liveBlocks (pre ++ b :: post), p = d.addr + headerSize) (p : ℕ) :
    p ∈ live.erase (b.addr + headerSize) ↔
      ∃ d ∈ liveBlocks (pre ++ post), p = d.addr + headerSize := by
  rw [hnd.mem_erase_iff, hlive]
  constructor
  · rintro ⟨hne, d, hd, rfl⟩
    obtain ⟨hdm, hdf⟩ := mem_liveBlocks.mp hd
    rcases mem_row.mp hdm with rfl | hdm
    · exact absurd rfl hne
    · exact ⟨d, mem_liveBlocks.mpr ⟨hdm, hdf⟩, rfl⟩
  · rintro ⟨d, hd, rfl⟩
    obtain ⟨hdm, hdf⟩ := mem_liveBlocks.mp hd
    have := ht.addr_ne hdm
    exact ⟨by omega, d, mem_liveBlocks.mpr ⟨mem_insert_mid [b] hdm, hdf⟩, rfl⟩

theorem Inv.freeMem (hi : Inv c bs) (hptr : ptr = 0 ∨ ptr ∈ c.live ∨ ptr ∈ c.freed) :
    ∃ h' bs', Heap.freeMem c.heap ptr = .ok h' ∧ Inv (c.released ptr h') bs' := by
  by_cases hlive : ptr ∈ c.live
  · obtain ⟨b, hb, rfl⟩ := (hi.live ptr).mp hlive
    obtain ⟨hbm, hbf⟩ := mem_liveBlocks.mp hb
    obtain ⟨pre, post, rfl⟩ := append_of_mem hbm
    obtain ⟨h', bs', hrun, -, hr', hlv, hst, hself, -, -⟩ := freeMem_live hi.rep hbf
    refine ⟨h', bs', hrun, ?_⟩
    unfold Client.released
    rw [if_pos hlive]
    refine ⟨hr', fun p => ?_, hi.nodup.erase _, ?_⟩
    · rw [hlv]
      exact mem_erase_live hi.rep.layout.tiles hbf hi.nodup hi.live p
    · intro p hp
      rcases mem_cons.mp hp with rfl | hp
      · exact ⟨b.addr, rfl, hself⟩
      · obtain ⟨a, rfl, ha⟩ := hi.freed p hp
        exact ⟨a, rfl, hst a ha⟩
  · have hsame : Heap.freeMem c.heap ptr = .ok c.heap := by
      rcases hptr with rfl | hptr | hptr
      · exact if_pos rfl
      · exact absurd hptr hlive
      · obtain ⟨a, rfl, ha⟩ := hi.freed ptr hptr
        exact freeMem_stale hi.rep.layout ha
    refine ⟨c.heap, bs, hsame, ?_⟩
    unfold Client.released
    rw [if_neg hlive]
    exact hi

theorem Inv.resize (hi : Inv c bs) (hptr : ptr ∈ c.live) (hn0 : n ≠ 0) (hn : n + 19 < 2 ^ 64) :
    ∃ r bs', Heap.allocResize c.heap ptr n = .ok r ∧ Inv (c.resized ptr r) bs' := by
  obtain ⟨b, hb, rfl⟩ := (hi.live ptr).mp hptr
  rcases allocResize_spec hi.rep hb hn0 hn with ⟨-, hrun⟩ | hrun | ⟨h', bs', d, -, hrun, hm⟩
  · refine ⟨_, bs, hrun, ?_⟩
    unfold Client.resized
    rw [if_pos (.inr rfl)]
    exact hi
  · refine ⟨_, bs, hrun, ?_⟩
    exact hi
  · refine ⟨_, bs', hrun, ?_⟩
    have hne : b.addr ≠ d.addr := hm.new b hb
    unfold Client.resized
    rw [if_neg (by
      show ¬(d.addr + headerSize = 0 ∨ d.addr + headerSize = b.addr + headerSize)
      unfold headerSize
      omega)]
    refine ⟨hm.rep, fun p => ?_, nodup_cons.mpr ⟨fun hmem => ?_, hi.nodup.erase _⟩, ?_⟩
    · show p ∈ (d.addr + headerSize) :: c.live.erase (b.addr + headerSize) ↔ _
      rw [mem_cons, hi.nodup.mem_erase_iff, hi.live]
      constructor
      · rintro (rfl | ⟨hne', e, he, rfl⟩)
        · exact ⟨d, (hm.live d).mpr (.inl rfl), rfl⟩
        · exact ⟨e, (hm.live e).mpr (.inr ⟨he, by omega⟩), rfl⟩
      · rintro ⟨e, he, rfl⟩
        rcases (hm.live e).mp he with rfl | ⟨he, hne'⟩
        · exact .inl rfl
        · exact .inr ⟨by omega, e, he, rfl⟩
    · -- the new pointer was not held before
      obtain ⟨e, he, heq⟩ := (hi.live _).mp (mem_of_mem_erase hmem)
      exact hm.new e he (by omega)
    · intro p hp
      rw [mem_singleton.mp hp]
      exact ⟨b.addr, rfl, hm.stale⟩

theorem Inv.store (hi : Inv c bs) {bytes : List UInt8} (hptr : ptr ∈ c.live)
    (hlen : bytes.length ≤ c.heap.get (ptr - headerSize) .size - footerSize) :
    Inv { c with heap := { c.heap with mem := store c.heap.mem ptr bytes } } bs := by
  obtain ⟨b, hb, rfl⟩ := (hi.live ptr).mp hptr
  obtain ⟨hbm, hbf⟩ := mem_liveBlocks.mp hb
  have hl := hi.rep.layout
  have hs := (hl.shape b hbm).1
  rw [Nat.add_sub_cancel, (hl.describes b hbm).size] at hlen
  have ht : Touches b.usable c.heap
      { c.heap with mem := ByteMem.store c.heap.mem (b.addr + headerSize) bytes } := by
    refine touches_of_changed (changed_store _ _ _) fun i hii hii' => ?_
    refine (b.mem_usable ?_).mpr ⟨hii, by omega⟩
    unfold minBlockSize at hs
    omega
  refine ⟨hi.rep.of_usable hbm ht rfl, hi.live, hi.nodup, fun p hp => ?_⟩
  obtain ⟨a, rfl, ha⟩ := hi.freed p hp
  exact ⟨a, rfl, ha.of_usable hl hbm hbf ht⟩

variable {op : Op} {ops : List Op}

theorem Inv.step (hi : Inv c bs) (hop : c.Proper op) :
    ∃ c' bs', c.step op = .ok c' ∧ Inv c' bs' := by
  cases op with
  | alloc size => exact hi.request (alloc_request hi.rep hop)
  | allocUnzeroed size => exact hi.request (allocUnzeroed_spec hi.rep hop)
  | allocArray count elemSize =>
    rw [Client.step]
    rcases hop with hop | hop
    · rw [allocArray_eq c.heap (by omega)]
      exact hi.request (alloc_request hi.rep hop)
    · rw [allocArray_overflow c.heap hop]
      exact hi.request (n := 0) (.inl rfl)
  | allocResize ptr newSize =>
    obtain ⟨hn, hptr⟩ := hop
    rw [Client.step]
    by_cases hp0 : ptr = 0
    · rw [if_pos hp0]
      unfold Heap.allocResize
      rw [if_pos hp0]
      exact hi.request (alloc_request hi.rep hn)
    · rw [if_neg hp0]
      by_cases hn0 : newSize = 0
      · rw [if_pos hn0]
        unfold Heap.allocResize
        rw [if_neg hp0, if_pos hn0]
        obtain ⟨h', bs', hrun, hi'⟩ := hi.freeMem (hptr.imp_right (Or.imp_right And.right))
        rw [hrun]
        exact ⟨_, bs', rfl, hi'⟩
      · rw [if_neg hn0]
        have hlive : ptr ∈ c.live := by
          rcases hptr with h | h | h
          · exact absurd h hp0
          · exact h
          · exact absurd h.1 hn0
        obtain ⟨r, bs', hrun, hi'⟩ := hi.resize hlive hn0 hn
        rw [hrun]
        exact ⟨_, bs', rfl, hi'⟩
  | freeMem ptr =>
    obtain ⟨h', bs', hrun, hi'⟩ := hi.freeMem hop
    rw [Client.step]
    rw [hrun]
    exact ⟨_, bs', rfl, hi'⟩
  | store ptr bytes => exact ⟨_, bs, rfl, hi.store hop.1 hop.2⟩

theorem Inv.run (hi : Inv c bs) (hops : c.ProperRun ops) :
    ∃ c' bs', c.run ops = .ok c' ∧ Inv c' bs' := by
  induction ops generalizing c bs with
  | nil => exact ⟨c, bs, rfl, hi⟩
  | cons op ops ih =>
    obtain ⟨c₁, bs₁, hstep, hi₁⟩ := hi.step hops.1
    obtain ⟨c', bs', hrun, hi'⟩ := ih hi₁ (hops.2 c₁ hstep)
    refine ⟨c', bs', ?_, hi'⟩
    rw [Client.run, hstep]
    exact hrun

theorem Inv.proper (hi : Inv c bs) (hop : c.Legal op) : c.Proper op := by
  have hfits : ∀ n, n ≤ c.heap.heapSize → n + 19 < 2 ^ 64 :=
    fun n hn => hi.rep.layout.heapSize_add_lt hn
  cases op with
  | alloc size => exact hfits _ hop
  | allocUnzeroed size => exact hfits _ hop
  | allocArray count elemSize => exact .inl (hfits _ hop)
  | allocResize ptr newSize => exact ⟨hfits _ hop.1, hop.2⟩
  | freeMem ptr => exact hop
  | store ptr bytes => exact hop

theorem Inv.properRun (hi : Inv c bs) (hops : c.LegalRun ops) : c.ProperRun ops := by
  induction ops generalizing c bs with
  | nil => trivial
  | cons op ops ih =>
    refine ⟨hi.proper hops.1, fun c' hstep => ?_⟩
    obtain ⟨c₁, bs₁, hstep₁, hi₁⟩ := hi.step (hi.proper hops.1)
    obtain rfl : c₁ = c' := Except.ok.inj (hstep₁.symm.trans hstep)
    exact ih hi₁ (hops.2 c₁ hstep)

end Client

/-! ## The fresh heap -/

/-- The stores of `allocator_init` for a heap of `size` bytes at `start`. -/
def freshHeap (m : Mem) (start size : ℕ) : Allocator :=
  let h : Allocator :=
    { mem := m, freeListHead := start, heapStart := start, heapEnd := start + size,
      heapSize := size, totalAllocated := 0, totalFree := 0, peakUsage := 0 }
  let h := (((((h.set start .size (size - headerSize)).set start .free 1).set start .next 0).set
    start .prev 0).set start .magic blockMagic).writeFooter start
  { h with totalFree := h.get start .size }

/-- The bytes of the region that remain between aligned addresses. -/
def regionSize (memory size : ℕ) : ℕ :=
  (size - (align memory - memory)) / alignment * alignment

theorem align_eq (hn : n + 15 < 2 ^ 64) :
    n ≤ align n ∧ align n < n + 16 ∧ align n % alignment = 0 := by
  unfold align alignment
  omega

variable {memory size : ℕ}

theorem allocatorInit_eq (m : Mem) (h0 : memory ≠ 0) (hmin : 68 ≤ size)
    (hend : memory + size < 2 ^ 64) :
    allocatorInit m memory size = .ok (freshHeap m (align memory) (regionSize memory size)) := by
  have ha := align_eq (show memory + 15 < 2 ^ 64 by omega)
  unfold allocatorInit freshHeap regionSize
  rw [if_neg (by unfold headerSize minBlockSize footerSize; omega), if_neg (by omega)]

section Fresh

variable (m : Mem) (start size : ℕ) (h0 : start ≠ 0) (hmin : 36 ≤ size)
  (hend : start + size < 2 ^ 64)

include h0 hmin hend

theorem freshHeap_get :
    (freshHeap m start size).get start .size = size - headerSize ∧
      (freshHeap m start size).get start .free = 1 ∧
      (freshHeap m start size).get start .next = 0 ∧
      (freshHeap m start size).get start .prev = 0 ∧
      (freshHeap m start size).get start .magic = blockMagic ∧
      (freshHeap m start size).totalFree = size - headerSize ∧
      readLE (freshHeap m start size).mem footerSize (start + size - footerSize) =
        footerMagic := by
  have hA : ApartOn {start} :=
    ⟨fun x hx => (Set.mem_singleton_iff.mp hx) ▸ h0, fun x hx y hy hxy => absurd
      ((Set.mem_singleton_iff.mp hx).trans (Set.mem_singleton_iff.mp hy).symm) hxy⟩
  have hs : start ∈ ({start} : Set ℕ) := rfl
  have hf : ∀ f : Field, Fits f 0 := fun f => by cases f <;> norm_num [Field.width]
  have hsz : Fits .size (size - headerSize) := by
    show _ < 256 ^ 8
    omega
  unfold freshHeap
  simp only [get_withCounters]
  generalize hk : ((((_ : Allocator).set start .free 1).set start .next 0).set
    start .prev 0).set start .magic blockMagic = k
  have hget : ∀ g, k.get start g = if g = .magic then blockMagic else if g = .prev then 0 else
      if g = .next then 0 else if g = .free then 1 else size - headerSize := by
    intro g
    rw [← hk, get_set hA hs hs (by norm_num [Field.width]), get_set hA hs hs (hf _),
      get_set hA hs hs (hf _), get_set hA hs hs (by norm_num [Field.width]),
      get_set hA hs hs hsz]
    cases g <;> simp
  have hsize : k.get start .size = size - headerSize := by rw [hget]; rfl
  have hfoot : start + headerSize + (size - headerSize) - footerSize = start + size - footerSize := by
    unfold headerSize
    omega
  obtain ⟨-, hread⟩ := touches_writeFooter_of_size hsize
  rw [hfoot] at hread
  have hclear : start + headerSize ≤ k.blockFooter start := by
    unfold blockFooter
    rw [hsize]
    unfold headerSize footerSize
    omega
  simp only [get_writeFooter _ (.inr hclear), hget, reduceCtorEq, if_true, if_false, true_and]
  exact hread

end Fresh

theorem freshHeap_globals (m : Mem) (start size : ℕ) :
    (freshHeap m start size).freeListHead = start ∧ (freshHeap m start size).heapStart = start ∧
      (freshHeap m start size).heapEnd = start + size ∧
      (freshHeap m start size).heapSize = size ∧
      (freshHeap m start size).totalAllocated = 0 := ⟨rfl, rfl, rfl, rfl, rfl⟩

theorem freshHeap_rep (m : Mem) (start size : ℕ) (h0 : start ≠ 0) (hs : start % alignment = 0)
    (hsz : size % alignment = 0) (hmin : headerSize + minBlockSize ≤ size)
    (hend : start + size < 2 ^ 64) :
    Rep (freshHeap m start size) [⟨start, size - headerSize, true⟩] := by
  obtain ⟨hgs, hgf, hgn, hgp, hgm, hfree, hfoot⟩ := freshHeap_get m start size h0 (by
    unfold headerSize minBlockSize at hmin
    omega) hend
  obtain ⟨hhead, hstart, hstop, hsize, hall⟩ := freshHeap_globals m start size
  generalize freshHeap m start size = h at *
  have hbstop : Block.stop ⟨start, size - headerSize, true⟩ = start + size := by
    unfold minBlockSize at *
    show start + 32 + (size - 32) = _
    omega
  refine ⟨⟨hstart ▸ h0, hstart ▸ hs, hstop ▸ hend, by omega, ?_, ?_, ?_, ?_⟩, ?_, ?_⟩
  · rw [hstart, hstop]
    exact ⟨rfl, hbstop⟩
  · intro b hb
    rw [mem_singleton.mp hb]
    show minBlockSize ≤ size - headerSize ∧ (size - headerSize) % alignment = 0
    unfold headerSize alignment at *
    omega
  · intro b hb
    rw [mem_singleton.mp hb]
    exact ⟨hgs, hgm, hgf, by rw [hbstop]; exact hfoot⟩
  · show List.IsChain _ [0, start, 0]
    refine isChain_cons_cons.mpr ⟨⟨hhead, fun _ => hgp⟩, isChain_cons_cons.mpr
      ⟨⟨?_, fun h => absurd rfl h⟩, .singleton _⟩⟩
    unfold nextOf
    rw [if_neg h0]
    exact hgn
  · rw [hall]
    rfl
  · rw [hfree]
    simp [freeSize, freeBlocks]

theorem Client.inv_start (hr : Rep h [b]) (hb : b.free = true) :
    (Client.start h).Inv [b] where
  rep := hr
  live := by
    simp [Client.start, liveBlocks, hb]
  nodup := nodup_nil
  freed := by simp [Client.start]

/-- A region that makes a heap: a header and a smallest payload fit between its aligned
addresses. -/
structure Region (memory size : ℕ) : Prop where
  ne : memory ≠ 0
  min : 68 ≤ size
  stop : memory + size < 2 ^ 64
  room : align memory + 64 ≤ memory + size

theorem regionSize_bounds (memory size : ℕ) : regionSize memory size % alignment = 0 ∧
    regionSize memory size ≤ size - (align memory - memory) ∧
    size - (align memory - memory) < regionSize memory size + 16 := by
  unfold regionSize alignment
  omega

theorem Region.inv {m : Mem} (hr : Region memory size)
    (hinit : allocatorInit m memory size = .ok h) :
    (Client.start h).Inv [⟨align memory, regionSize memory size - headerSize, true⟩] := by
  obtain ⟨h0, hmin, hend, hroom⟩ := hr
  have ha := align_eq (show memory + 15 < 2 ^ 64 by omega)
  obtain ⟨hrs, hrle, hrlt⟩ := regionSize_bounds memory size
  rw [allocatorInit_eq m h0 hmin hend] at hinit
  cases hinit
  refine Client.inv_start (freshHeap_rep m _ _ (by omega) ha.2.2 hrs ?_ (by omega)) rfl
  unfold alignment headerSize minBlockSize at *
  omega

/-! ## What a run guarantees -/

/-- `b->free`. -/
def Allocator.isFree (h : Allocator) (b : ℕ) : Bool := h.get b .free ≠ 0

/-- The headers `bs` lie side by side from `s` to `e`. -/
def HeadersTile (h : Allocator) : ℕ → List ℕ → ℕ → Prop
  | s, [], e => s = e
  | s, b :: bs, e => b = s ∧ HeadersTile h (b + headerSize + h.get b .size) bs e

/-- The heap of a client is in order, with headers at `bs`: they tile the heap; the free list is
doubly linked and sorted and holds the free ones; the live ones are those the client holds,
aligned and without overlap; and the counter of allocated bytes is right. -/
structure HeapOk (c : Client) (bs : List ℕ) : Prop where
  tiled : HeadersTile c.heap c.heap.heapStart bs c.heap.heapEnd
  linked : c.heap.FreeList (bs.filter c.heap.isFree)
  sorted : (bs.filter c.heap.isFree).Pairwise (· < ·)
  live : ∀ p, p ∈ c.live ↔ ∃ b ∈ bs, c.heap.isFree b = false ∧ p = b + headerSize
  aligned : ∀ p ∈ c.live, p % 16 = 0
  disjoint : ∀ p ∈ c.live, ∀ q ∈ c.live, p ≠ q →
    p + c.heap.get (p - headerSize) .size ≤ q ∨ q + c.heap.get (q - headerSize) .size ≤ p
  allocated : c.heap.totalAllocated =
    ((bs.filter fun b => !c.heap.isFree b).map fun b => c.heap.get b .size).sum

theorem Layout.headersTile {s e : ℕ} (ht : Tiles s bs e)
    (hd : ∀ b ∈ bs, Describes h b) : HeadersTile h s (bs.map (·.addr)) e := by
  induction bs generalizing s with
  | nil => exact ht
  | cons b bs ih =>
    refine ⟨ht.1, ?_⟩
    rw [(hd b (by simp)).size]
    exact ih ht.2 fun c hc => hd c (by simp [hc])

theorem Layout.isFree_eq (hl : Layout h bs) (hb : b ∈ bs) : h.isFree b.addr = b.free := by
  unfold Allocator.isFree
  rw [(hl.describes b hb).free]
  cases b.free <;> simp

theorem Layout.filter_isFree (hl : Layout h bs) :
    (bs.map (·.addr)).filter h.isFree = freeAddrs bs := by
  rw [filter_map]
  congr 1
  exact filter_congr fun b hb => hl.isFree_eq hb

theorem Client.Inv.heapOk (hi : c.Inv bs) : HeapOk c (bs.map (·.addr)) := by
  have hl := hi.rep.layout
  refine ⟨Layout.headersTile hl.tiles hl.describes, ?_, ?_, fun p => ?_, fun p hp => ?_, ?_, ?_⟩
  · rw [hl.filter_isFree]
    exact hl.list
  · rw [hl.filter_isFree]
    exact hl.tiles.freeAddrs_pairwise
  · rw [hi.live]
    constructor
    · rintro ⟨b, hb, rfl⟩
      obtain ⟨hbm, hbf⟩ := mem_liveBlocks.mp hb
      exact ⟨b.addr, mem_map_of_mem hbm, (hl.isFree_eq hbm).trans hbf, rfl⟩
    · rintro ⟨a, ha, haf, rfl⟩
      obtain ⟨b, hb, rfl⟩ := mem_map.mp ha
      exact ⟨b, mem_liveBlocks.mpr ⟨hb, (hl.isFree_eq hb).symm.trans haf⟩, rfl⟩
  · obtain ⟨b, hb, rfl⟩ := (hi.live p).mp hp
    have := hl.addr_aligned (mem_liveBlocks.mp hb).1
    unfold alignment at this
    unfold headerSize
    omega
  · intro p hp q hq hpq
    obtain ⟨b, hb, rfl⟩ := (hi.live p).mp hp
    obtain ⟨d, hd, rfl⟩ := (hi.live q).mp hq
    have hbm := (mem_liveBlocks.mp hb).1
    have hdm := (mem_liveBlocks.mp hd).1
    have := hl.tiles.apart hbm hdm (by omega)
    rw [Nat.add_sub_cancel, Nat.add_sub_cancel, (hl.describes b hbm).size,
      (hl.describes d hdm).size]
    unfold Block.stop at this
    omega
  · rw [hi.rep.allocated]
    unfold liveSize
    rw [filter_map, map_map]
    have hfilter : bs.filter ((fun b => !c.heap.isFree b) ∘ (·.addr)) = bs.filter (!·.free) :=
      filter_congr fun b hb => by
        show (!c.heap.isFree b.addr) = _
        rw [hl.isFree_eq hb]
    rw [hfilter]
    congr 1
    exact map_congr_left fun b hb =>
      ((hl.describes b (mem_of_mem_filter hb)).size).symm

/-- On a region cut down to 48 bytes the first block is smaller than the allocator allows, and
the first search stops at it. -/
theorem run_freshHeap_48 (m : Mem) (start : ℕ) (h0 : start ≠ 0) (hend : start + 48 < 2 ^ 64) :
    (Client.start (freshHeap m start 48)).LegalRun [.alloc 1] ∧
      (Client.start (freshHeap m start 48)).run [.alloc 1] =
        .error (.panic "alloc: corrupted heap") := by
  obtain ⟨hgs, -⟩ := freshHeap_get m start 48 h0 (by norm_num) hend
  obtain ⟨hhead, -, -, hsize, -⟩ := freshHeap_globals m start 48
  have hbad : (freshHeap m start 48).validateBlockFast start = false := by
    unfold validateBlockFast
    rw [hgs]
    simp [headerSize, minBlockSize]
  have hmax : (freshHeap m start 48).maxVisits = 1 := by
    unfold maxVisits headerSize minBlockSize
    rw [hsize]
  have hpanic : alloc (freshHeap m start 48) 1 = .error (.panic "alloc: corrupted heap") := by
    unfold alloc allocLocked
    rw [if_neg (by norm_num), hhead, hmax, firstFit, if_neg h0]
    simp only [hbad, Bool.not_false, if_true]
  have hstep : (Client.start (freshHeap m start 48)).step (.alloc 1) =
      .error (.panic "alloc: corrupted heap") := by
    show (alloc (freshHeap m start 48) 1).map _ = _
    rw [hpanic]
    rfl
  refine ⟨⟨?_, fun _ _ => trivial⟩, ?_⟩
  · show 1 ≤ (freshHeap m start 48).heapSize
    rw [hsize]
    norm_num
  · rw [Client.run, hstep]

/-- **The heap over every run.** A region that `allocator_init` accepts gives a heap that is in
order after every run in scope, and on which no such run reaches a `PANIC`, exactly when a header
and a smallest payload fit between its aligned addresses. -/
theorem heapOk_runs_iff (m : Mem) (memory size : ℕ) (h0 : memory ≠ 0) (hmin : 68 ≤ size)
    (hend : memory + size < 2 ^ 64) :
    (∀ h, allocatorInit m memory size = .ok h → ∀ ops, (Client.start h).LegalRun ops →
      ∃ c bs, (Client.start h).run ops = .ok c ∧ HeapOk c bs) ↔
      align memory + 64 ≤ memory + size := by
  constructor
  · intro hruns
    by_contra hsmall
    have ha := align_eq (show memory + 15 < 2 ^ 64 by omega)
    have hinit := allocatorInit_eq m h0 hmin hend
    have hrs := regionSize_bounds memory size
    unfold alignment at *
    have h48 : regionSize memory size = 48 := by omega
    rw [h48] at hinit
    obtain ⟨hlegal, hpanic⟩ := run_freshHeap_48 m (align memory) (by omega) (by omega)
    obtain ⟨c, bs, hrun, -⟩ := hruns _ hinit _ hlegal
    rw [hpanic] at hrun
    cases hrun
  · intro hroom h hh ops hops
    have hi := Region.inv ⟨h0, hmin, hend, hroom⟩ hh
    obtain ⟨c, bs, hrun, hi⟩ := hi.run (hi.properRun hops)
    exact ⟨c, _, hrun, hi.heapOk⟩

/-- A page and a first allocation. -/
theorem heapOk_runs_iff_page :
    ∃ h, allocatorInit (fun _ => 0) 0x1000 4096 = .ok h ∧
      ∃ c bs, (Client.start h).run [.alloc 100] = .ok c ∧ HeapOk c bs := by
  refine ⟨_, allocatorInit_eq _ (by norm_num) (by norm_num) (by norm_num), ?_⟩
  refine (heapOk_runs_iff (fun _ => 0) 0x1000 4096 (by norm_num) (by norm_num) (by norm_num)).mpr
    (by decide) _ (allocatorInit_eq _ (by norm_num) (by norm_num) (by norm_num)) _
    ⟨?_, fun _ _ => trivial⟩
  show 100 ≤ (freshHeap _ _ _).heapSize
  decide

/-- 68 bytes at an odd address: `allocator_init` accepts the region, and the first allocation
panics. -/
theorem alloc_panics_on_odd_region :
    ∃ h, allocatorInit (fun _ => 0) 0x1001 68 = .ok h ∧ (Client.start h).LegalRun [.alloc 1] ∧
      (Client.start h).run [.alloc 1] = .error (.panic "alloc: corrupted heap") :=
  ⟨freshHeap (fun _ => 0) 0x1010 48,
    allocatorInit_eq _ (by norm_num) (by norm_num) (by norm_num),
    run_freshHeap_48 _ _ (by norm_num) (by norm_num)⟩

end MinimalOS.Heap
