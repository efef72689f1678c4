import Mathlib.Tactic.NormNum
import MinimalOS.Lib.LinkedChain
import MinimalOS.Heap.Allocator

/-!
# Header fields and the free list

Headers at addresses that are apart do not share a byte, so a field store is seen by exactly one
field of one header (`get_set`). On top of that, the list operations of the source are the two
link stores `setNextOf` and `setPrevOf` in some order, and each of them is a splice of the
doubly linked list.
-/

namespace MinimalOS.Heap

open ByteMem LinkedChain List

/-- No two headers of `A` overlap, and none is the null pointer. -/
structure ApartOn (A : Set ℕ) : Prop where
  ne_zero : ∀ x ∈ A, x ≠ 0
  apart : ∀ x ∈ A, ∀ y ∈ A, x ≠ y → x + headerSize ≤ y ∨ y + headerSize ≤ x

theorem Field.offset_add_width_le (f : Field) : f.offset + f.width ≤ headerSize := by
  cases f <;> decide

theorem Field.disjoint {f g : Field} (h : f ≠ g) :
    g.offset + g.width ≤ f.offset ∨ f.offset + f.width ≤ g.offset := by
  cases f <;> cases g <;> first | exact absurd rfl h | decide

/-- The field `f` can hold `v`. -/
abbrev Fits (f : Field) (v : ℕ) : Prop := v < 256 ^ f.width

theorem Field.fits_zero (f : Field) : Fits f 0 := by cases f <;> norm_num [Field.width]

theorem fits_free_one : Fits .free 1 := by norm_num [Field.width]

theorem fits_of_mem {A : Set ℕ} (hfit : ∀ u ∈ A, Fits .next u) {x : ℕ} (hx : x ≠ 0 → x ∈ A) :
    Fits .next x := by
  by_cases h0 : x = 0
  · exact h0 ▸ Field.fits_zero .next
  · exact hfit x (hx h0)

namespace Allocator

theorem fits_get (h : Allocator) (b : ℕ) (f : Field) : Fits f (h.get b f) :=
  readLE_lt h.mem f.width (b + f.offset)

@[simp]
theorem get_withCounters (h : Allocator) (allocated free peak b : ℕ) (f : Field) :
    ({ h with totalAllocated := allocated, totalFree := free, peakUsage := peak } :
      Allocator).get b f = h.get b f := rfl

section Fields

variable {A : Set ℕ} (hA : ApartOn A) {h : Allocator} {b c : ℕ} {f g : Field} {v : ℕ}

include hA in
theorem get_set (hb : b ∈ A) (hc : c ∈ A) (hv : Fits f v) :
    (h.set b f v).get c g = if c = b ∧ g = f then v else h.get c g := by
  unfold Allocator.get Allocator.set
  by_cases hcb : c = b
  · by_cases hgf : g = f
    · subst hcb hgf
      rw [if_pos ⟨rfl, rfl⟩, readLE_writeLE_self, Nat.mod_eq_of_lt hv]
    · subst hcb
      rw [if_neg fun h => hgf h.2]
      have := Field.disjoint (Ne.symm hgf)
      exact readLE_writeLE_of_le (by omega)
  · rw [if_neg fun h => hcb h.1]
    have hf := f.offset_add_width_le
    have hg := g.offset_add_width_le
    have := hA.apart c hc b hb hcb
    exact readLE_writeLE_of_le (by omega)

end Fields

/-- The successor of a list node; that of the null pointer is the list head. -/
def nextOf (h : Allocator) (x : ℕ) : ℕ := if x = 0 then h.freeListHead else h.get x .next

def prevOf (h : Allocator) (y : ℕ) : ℕ := h.get y .prev

/-- `if (x) x->next = v; else free_list_head = v`. -/
def setNextOf (h : Allocator) (x v : ℕ) : Allocator :=
  if x ≠ 0 then h.set x .next v else { h with freeListHead := v }

/-- `if (y) y->prev = v`. -/
def setPrevOf (h : Allocator) (y v : ℕ) : Allocator := if y ≠ 0 then h.set y .prev v else h

/-- The bytes of the headers of `A`. -/
def headerBytes (A : Set ℕ) : Set ℕ := {a | ∃ c ∈ A, c ≤ a ∧ a < c + headerSize}

/-- `h'` differs from `h` at most in the bytes `P` and in the list head. -/
structure Touches (P : Set ℕ) (h h' : Allocator) : Prop where
  mem : ∀ a ∉ P, h'.mem a = h.mem a
  start : h'.heapStart = h.heapStart
  stop : h'.heapEnd = h.heapEnd
  size : h'.heapSize = h.heapSize
  allocated : h'.totalAllocated = h.totalAllocated
  free : h'.totalFree = h.totalFree

theorem Touches.refl (P : Set ℕ) (h : Allocator) : Touches P h h :=
  ⟨fun _ _ => rfl, rfl, rfl, rfl, rfl, rfl⟩

variable {P A : Set ℕ} {h h' : Allocator} {b x u : ℕ} {l₁ l₂ : List ℕ}

theorem Touches.trans {h₁ h₂ h₃ : Allocator} (h : Touches P h₁ h₂) (h' : Touches P h₂ h₃) :
    Touches P h₁ h₃ :=
  ⟨fun a ha => (h'.mem a ha).trans (h.mem a ha), h'.start.trans h.start, h'.stop.trans h.stop,
    h'.size.trans h.size, h'.allocated.trans h.allocated, h'.free.trans h.free⟩

theorem Touches.mono {Q : Set ℕ} (ht : Touches P h h') (hPQ : P ⊆ Q) : Touches Q h h' :=
  ⟨fun a ha => ht.mem a fun hP => ha (hPQ hP), ht.start, ht.stop, ht.size, ht.allocated, ht.free⟩

theorem Touches.readLE_eq (ht : Touches P h h') {w a : ℕ} (ha : ∀ i, a ≤ i → i < a + w → i ∉ P) :
    readLE h'.mem w a = readLE h.mem w a :=
  readLE_congr w a fun i hi hi' => ht.mem i (ha i hi hi')

theorem Touches.get_eq (ht : Touches P h h') (hb : ∀ i, b ≤ i → i < b + headerSize → i ∉ P)
    (f : Field) : h'.get b f = h.get b f := by
  have := f.offset_add_width_le
  exact ht.readLE_eq fun i hi hi' => hb i (by omega) (by omega)

theorem touches_of_changed {a n : ℕ} {m : Mem} (hm : Changed a n h.mem m)
    (hP : ∀ i, a ≤ i → i < a + n → i ∈ P) : Touches P h { h with mem := m } := by
  refine ⟨fun i hi => hm i ?_, rfl, rfl, rfl, rfl, rfl⟩
  by_contra hin
  exact hi (hP i (by omega) (by omega))

theorem touches_set (h : Allocator) (hb : b ∈ A) (f : Field) (v : ℕ) :
    Touches (headerBytes A) h (h.set b f v) := by
  have := f.offset_add_width_le
  exact touches_of_changed (changed_writeLE _ _ _ _) fun i hi hi' => ⟨b, hb, by omega, by omega⟩

theorem touches_setNextOf (h : Allocator) (hx : x ≠ 0 → x ∈ A) (v : ℕ) :
    Touches (headerBytes A) h (h.setNextOf x v) := by
  unfold setNextOf
  split_ifs with hx0
  · exact touches_set h (hx hx0) _ _
  · exact ⟨fun _ _ => rfl, rfl, rfl, rfl, rfl, rfl⟩

theorem touches_setPrevOf (h : Allocator) {y : ℕ} (hy : y ≠ 0 → y ∈ A) (v : ℕ) :
    Touches (headerBytes A) h (h.setPrevOf y v) := by
  unfold setPrevOf
  split_ifs with hy0
  · exact touches_set h (hy hy0) _ _
  · exact .refl _ h

section Links

variable {A : Set ℕ} (hA : ApartOn A) {h : Allocator} {b u x y v : ℕ} {f g : Field}

include hA

theorem get_setNextOf (hx : x ≠ 0 → x ∈ A) (hu : u ∈ A) (hv : Fits .next v) :
    (h.setNextOf x v).get u g = if u = x ∧ g = .next then v else h.get u g := by
  unfold setNextOf
  split_ifs with hx0 hux hux
  · rw [get_set hA (hx hx0) hu hv, if_pos hux]
  · rw [get_set hA (hx hx0) hu hv, if_neg hux]
  · exact absurd (hux.1.trans (not_not.mp hx0)) (hA.ne_zero u hu)
  · rfl

theorem get_setPrevOf (hy : y ≠ 0 → y ∈ A) (hu : u ∈ A) (hv : Fits .next v) :
    (h.setPrevOf y v).get u g = if u = y ∧ g = .prev then v else h.get u g := by
  unfold setPrevOf
  split_ifs with hy0 huy huy
  · rw [get_set hA (hy hy0) hu (show Fits .prev v from hv), if_pos huy]
  · rw [get_set hA (hy hy0) hu (show Fits .prev v from hv), if_neg huy]
  · exact absurd (huy.1.trans (not_not.mp hy0)) (hA.ne_zero u hu)
  · rfl

theorem nextOf_setNextOf (hx : x ≠ 0 → x ∈ A) (hu : u ≠ 0 → u ∈ A) (hv : Fits .next v) :
    (h.setNextOf x v).nextOf u = if u = x then v else h.nextOf u := by
  unfold nextOf
  by_cases hu0 : u = 0
  · subst hu0
    unfold setNextOf
    by_cases hx0 : x = 0
    · simp [hx0]
    · simp [hx0, Ne.symm hx0, set]
  · rw [if_neg hu0, if_neg hu0, get_setNextOf hA hx (hu hu0) hv]
    simp

theorem nextOf_setPrevOf (hy : y ≠ 0 → y ∈ A) (hu : u ≠ 0 → u ∈ A) (hv : Fits .next v) :
    (h.setPrevOf y v).nextOf u = h.nextOf u := by
  unfold nextOf
  split_ifs with hu0
  · unfold setPrevOf
    split_ifs <;> rfl
  · rw [get_setPrevOf hA hy (hu hu0) hv]
    simp

theorem nextOf_set (hb : b ∈ A) (hu : u ≠ 0 → u ∈ A) (hv : Fits f v) :
    (h.set b f v).nextOf u = if u = b ∧ f = .next then v else h.nextOf u := by
  unfold nextOf
  by_cases hu0 : u = 0
  · simp [hu0, hA.ne_zero b hb |>.symm, set]
  · rw [if_neg hu0, if_neg hu0, get_set hA hb (hu hu0) hv]
    simp [eq_comm]

end Links

/-- The free list holds the blocks `fs`, in this order. -/
def FreeList (h : Allocator) (fs : List ℕ) : Prop := Linked h.nextOf h.prevOf 0 fs

theorem FreeList.head {fs : List ℕ} (hl : FreeList h fs) :
    h.freeListHead = fs.headD 0 := head_eq hl

theorem FreeList.next (hl : FreeList h (l₁ ++ x :: l₂)) (hx : x ≠ 0) :
    h.get x .next = l₂.headD 0 := by
  have := hl.node.1
  rwa [nextOf, if_neg hx] at this

theorem FreeList.prev (hl : FreeList h (l₁ ++ x :: l₂)) (hx : x ≠ 0) :
    h.get x .prev = l₁.getLastD 0 := hl.node.2 hx

theorem FreeList.splice (l₁ old mid l₂ : List ℕ) (hl : FreeList h (l₁ ++ (old ++ l₂)))
    (hnd : (0 :: (l₁ ++ l₂)).Nodup)
    (hn : ∀ u ∈ 0 :: (l₁ ++ l₂), u ≠ l₁.getLastD 0 → h'.nextOf u = h.nextOf u)
    (hp : ∀ u ∈ l₁ ++ l₂, u ≠ l₂.headD 0 → h'.prevOf u = h.prevOf u)
    (hmid : List.IsChain (Link h'.nextOf h'.prevOf 0) (l₁.getLastD 0 :: (mid ++ [l₂.headD 0]))) :
    FreeList h' (l₁ ++ (mid ++ l₂)) :=
  Linked.splice hl hnd hn hp hmid

theorem ends_mem (l₁ l₂ : List ℕ) :
    l₁.getLastD 0 ∈ 0 :: (l₁ ++ l₂) ∧ l₂.headD 0 ∈ 0 :: (l₁ ++ l₂) := by
  rw [mem_cons, mem_cons, mem_append, mem_append]
  exact ⟨(getLastD_eq_or_mem l₁).imp_right .inl, (headD_eq_or_mem l₂).imp_right .inr⟩

/-! ## Insertion -/

theorem findInsert_eq (hl : FreeList h (l₁ ++ l₂)) (hlo : ∀ u ∈ l₁, u ≠ 0 ∧ u < b)
    (hhi : ∀ u ∈ l₂, b ≤ u) :
    ∀ (rest pre : List ℕ) (curr n : ℕ), l₁ = pre ++ curr :: rest → rest.length < n →
      h.findInsert b n curr = some (l₁.getLastD 0) := by
  intro rest
  induction rest with
  | nil =>
    intro pre curr n hsplit hn
    obtain ⟨n, rfl⟩ := Nat.exists_eq_succ_of_ne_zero (Nat.ne_of_gt hn)
    rw [hsplit, append_assoc] at hl
    have hnext : h.get curr .next = l₂.headD 0 := hl.next (hlo curr (by simp [hsplit])).1
    rw [findInsert, if_neg, hsplit, getLastD_concat]
    rw [hnext]
    cases l₂ with
    | nil => exact fun h => h.1 rfl
    | cons y l₂ => exact fun h => absurd (hhi y (by simp)) (Nat.not_le.mpr h.2)
  | cons r rest ih =>
    intro pre curr n hsplit hn
    obtain ⟨n, rfl⟩ := Nat.exists_eq_succ_of_ne_zero (Nat.ne_of_gt (Nat.lt_of_le_of_lt
      (Nat.zero_le _) hn))
    have hr := hlo r (by simp [hsplit])
    rw [hsplit, append_assoc] at hl
    have hnext : h.get curr .next = r := hl.next (hlo curr (by simp [hsplit])).1
    rw [findInsert, hnext, if_pos hr]
    exact ih (pre ++ [curr]) r n (by simp [hsplit]) (by simpa using hn)

/-- Put `b` between `x` and `y`. -/
def link (h : Allocator) (b x y : ℕ) : Allocator :=
  ((((h.set b .free 1).set b .next y).set b .prev x).setPrevOf y b).setNextOf x b

section Insert

variable {A : Set ℕ} (hA : ApartOn A) (hfit : ∀ u ∈ A, Fits .next u) {h : Allocator}
  {b u x y : ℕ} {l₁ l₂ : List ℕ}

include hA hfit

theorem insertFreeBlock_eq (hl : FreeList h (l₁ ++ l₂)) (hlA : ∀ u ∈ l₁ ++ l₂, u ∈ A)
    (hb : b ∈ A) (hlo : ∀ u ∈ l₁, u < b) (hhi : ∀ u ∈ l₂, b < u) (hlen : l₁.length ≤ h.heapSize) :
    h.insertFreeBlock b = .ok (h.link b (l₁.getLastD 0) (l₂.headD 0)) := by
  have hfree : ∀ c, c ≠ b → c ∈ A → (h.set b .free 1).get c .next = h.get c .next := by
    intro c hcb hc
    rw [get_set hA hb hc (by norm_num [Field.width]), if_neg (by simp)]
  unfold insertFreeBlock
  rcases eq_nil_or_concat l₁ with rfl | ⟨l, x, rfl⟩
  · -- `b` comes first
    have hhead : h.freeListHead = l₂.headD 0 := hl.head
    rw [if_pos]
    · show Except.ok _ = _
      unfold link setNextOf
      rw [← hhead]
      rfl
    · show h.freeListHead = 0 ∨ b < h.freeListHead
      rw [hhead]
      cases l₂ with
      | nil => exact .inl rfl
      | cons y l₂ => exact .inr (hhi y (by simp))
  · -- `b` comes after `x`
    rw [concat_eq_append] at *
    have hne : ∀ c ∈ l ++ [x] ++ l₂, c ≠ 0 := fun c hc => hA.ne_zero c (hlA c hc)
    obtain ⟨f, rest, hf⟩ : ∃ f rest, l ++ [x] = f :: rest :=
      exists_cons_of_ne_nil (by simp)
    have hhead : h.freeListHead = f := by
      rw [hl.head, hf]
      rfl
    have hfmem : f ∈ l ++ [x] := by rw [hf]; simp
    rw [if_neg]
    · have hl' : FreeList (h.set b .free 1) (l ++ [x] ++ l₂) := by
        refine isChain_congr hl ?_ ?_
        · intro u hu
          rw [nextOf_set hA hb _ (by norm_num [Field.width]), if_neg (by simp)]
          intro hu0
          have hu' := dropLast_subset _ hu
          rw [mem_cons, mem_append, mem_singleton] at hu'
          exact hlA u (by tauto)
        · intro u hu hu0
          rw [tail_cons, mem_append, mem_singleton] at hu
          exact get_set hA hb (hlA u (by tauto)) (by norm_num [Field.width]) |>.trans
            (if_neg (by simp))
      have hwalk := findInsert_eq hl' (fun u hu => ⟨hne u (mem_append_left _ hu), hlo u hu⟩)
        (fun u hu => (hhi u hu).le) rest [] f h.heapSize hf (by
          rw [hf] at hlen
          exact hlen)
      have hxA : x ∈ A := hlA x (by simp)
      have hxb : x ≠ b := Nat.ne_of_lt (hlo x (by simp))
      have hnext : h.get x .next = l₂.headD 0 := by
        rw [append_assoc] at hl
        exact hl.next (hne x (by simp))
      rw [← hhead] at hwalk
      dsimp only
      rw [show (h.set b .free 1).findInsert b (h.set b .free 1).heapSize
        (h.set b .free 1).freeListHead = some ((l ++ [x]).getLastD 0) from hwalk]
      have hy : Fits .next (l₂.headD 0) := by
        rw [← hnext]
        exact fits_get h x .next
      have hread : (((h.set b .free 1).set b .next (l₂.headD 0)).set b .prev x).get x .next =
          l₂.headD 0 := by
        rw [get_set hA hb hxA (show Fits .prev x from hfit x hxA), if_neg (by simp),
          get_set hA hb hxA hy, if_neg (by simp [hxb]), hfree x hxb hxA, hnext]
      simp only [getLastD_concat, hfree x hxb hxA, hnext, hread]
      unfold link setNextOf setPrevOf
      rw [if_pos (hne x (by simp))]
    · show ¬(h.freeListHead = 0 ∨ b < h.freeListHead)
      have := hlo f hfmem
      have := hne f (by rw [mem_append]; exact .inl hfmem)
      omega

variable (hb : b ∈ A) (hx : x ≠ 0 → x ∈ A) (hy : y ≠ 0 → y ∈ A)

include hb hx hy

theorem link_fields (hu : u ∈ A) :
    (h.link b x y).get u .size = h.get u .size ∧ (h.link b x y).get u .magic = h.get u .magic ∧
      (h.link b x y).get u .free = if u = b then 1 else h.get u .free := by
  have hb' := hfit b hb
  unfold link
  simp only [get_setNextOf hA hx hu hb', get_setPrevOf hA hy hu hb',
    get_set hA hb hu (show Fits .prev x from fits_of_mem hfit hx), get_set hA hb hu (fits_of_mem hfit hy),
    get_set hA hb hu fits_free_one]
  simp

theorem link_links :
    (∀ u, (u ≠ 0 → u ∈ A) →
      (h.link b x y).nextOf u = if u = x then b else if u = b then y else h.nextOf u) ∧
    ∀ u ∈ A, (h.link b x y).prevOf u = if u = y then b else if u = b then x else h.prevOf u := by
  have hb' := hfit b hb
  unfold link
  refine ⟨fun u hu => ?_, fun u hu => ?_⟩
  · simp only [nextOf_setNextOf hA hx hu hb', nextOf_setPrevOf hA hy hu hb',
      nextOf_set hA hb hu (show Fits .prev x from fits_of_mem hfit hx), nextOf_set hA hb hu (fits_of_mem hfit hy),
      nextOf_set hA hb hu fits_free_one]
    simp
  · unfold prevOf
    simp only [get_setNextOf hA hx hu hb', get_setPrevOf hA hy hu hb',
      get_set hA hb hu (show Fits .prev x from fits_of_mem hfit hx), get_set hA hb hu (fits_of_mem hfit hy),
      get_set hA hb hu fits_free_one]
    simp

end Insert

/-! ## Footers -/

theorem touches_writeFooter (h : Allocator) (b : ℕ)
    (hP : ∀ i, h.blockFooter b ≤ i → i < h.blockFooter b + footerSize → i ∈ P) :
    Touches P h (h.writeFooter b) :=
  touches_of_changed (changed_writeLE h.mem footerSize (h.blockFooter b) footerMagic) hP

theorem get_writeFooter (g : Field)
    (hu : h.blockFooter b + footerSize ≤ u ∨ u + headerSize ≤ h.blockFooter b) :
    (h.writeFooter b).get u g = h.get u g := by
  have := g.offset_add_width_le
  unfold writeFooter
  generalize h.blockFooter b = a at *
  exact readLE_writeLE_of_le (by omega)

@[simp]
theorem writeFooter_head (h : Allocator) (b : ℕ) :
    (h.writeFooter b).freeListHead = h.freeListHead := by
  unfold writeFooter
  rfl

theorem readLE_writeFooter (h : Allocator) (b : ℕ) :
    readLE (h.writeFooter b).mem footerSize (h.blockFooter b) = footerMagic := by
  unfold writeFooter
  norm_num

theorem nextOf_congr (hhead : h'.freeListHead = h.freeListHead)
    (hget : u ≠ 0 → h'.get u .next = h.get u .next) : h'.nextOf u = h.nextOf u := by
  unfold nextOf
  rw [hhead]
  split_ifs with hu0
  · rfl
  · exact hget hu0

/-! ## Removal -/

/-- Take `b` out from between `x` and `y`. -/
def unlink (h : Allocator) (b x y : ℕ) : Allocator :=
  ((((h.setNextOf x y).setPrevOf y x).set b .next 0).set b .prev 0).set b .free 0

/-- The last stores of `split_and_use`. -/
def claim (h : Allocator) (b : ℕ) : Allocator :=
  (((h.set b .free 0).set b .next 0).set b .prev 0).writeFooter b

def carve (h : Allocator) (rest size : ℕ) : Allocator :=
  (((((h.set rest .size size).set rest .magic blockMagic).set rest .next 0).set rest .prev 0).set
    rest .free 0).writeFooter rest

/-- Put `rest` in the place between `x` and `y`. -/
def relink (h : Allocator) (rest x y : ℕ) : Allocator :=
  ((((h.set rest .next y).set rest .prev x).setNextOf x rest).setPrevOf y rest).set rest .free 1

@[simp]
theorem claim_head (h : Allocator) (b : ℕ) : (h.claim b).freeListHead = h.freeListHead := by
  unfold claim
  rw [writeFooter_head]
  rfl

@[simp]
theorem carve_head (h : Allocator) (rest size : ℕ) :
    (h.carve rest size).freeListHead = h.freeListHead := by
  unfold carve
  rw [writeFooter_head]
  rfl

section Remove

variable {A : Set ℕ} (hA : ApartOn A) {h : Allocator} {b u x y : ℕ}

include hA

theorem removeFreeBlock_eq (hb : b ∈ A) (hx : h.get b .prev = x) (hy : h.get b .next = y)
    (hxA : x ≠ 0 → x ∈ A) (hxb : x ≠ b) : h.removeFreeBlock b = h.unlink b x y := by
  have hy' : Fits .next y := hy ▸ fits_get h b .next
  have hread : ∀ g, (h.setNextOf x y).get b g = h.get b g := fun g => by
    rw [get_setNextOf hA hxA hb hy', if_neg fun h => hxb h.1.symm]
  unfold removeFreeBlock
  rw [hx, hy]
  show (let h₁ := h.setNextOf x y
    let h₂ := if h₁.get b .next ≠ 0 then h₁.set (h₁.get b .next) .prev (h₁.get b .prev) else h₁
    ((h₂.set b .next 0).set b .prev 0).set b .free 0) = _
  simp only [hread, hx, hy]
  rfl

variable (hfit : ∀ u ∈ A, Fits .next u) (hb : b ∈ A) (hx : x ≠ 0 → x ∈ A) (hy : y ≠ 0 → y ∈ A)

include hfit hb hx hy

theorem unlink_fields (hu : u ∈ A) :
    (h.unlink b x y).get u .size = h.get u .size ∧
      (h.unlink b x y).get u .magic = h.get u .magic ∧
      (h.unlink b x y).get u .free = if u = b then 0 else h.get u .free := by
  unfold unlink
  simp only [get_setNextOf hA hx hu (fits_of_mem hfit hy), get_setPrevOf hA hy hu (fits_of_mem hfit hx),
    get_set hA hb hu (Field.fits_zero _)]
  simp

theorem unlink_links :
    (∀ u, (u ≠ 0 → u ∈ A) → u ≠ b →
      (h.unlink b x y).nextOf u = if u = x then y else h.nextOf u) ∧
    ∀ u ∈ A, u ≠ b → (h.unlink b x y).prevOf u = if u = y then x else h.prevOf u := by
  unfold unlink
  refine ⟨fun u hu hub => ?_, fun u hu hub => ?_⟩
  · simp only [nextOf_setNextOf hA hx hu (fits_of_mem hfit hy), nextOf_setPrevOf hA hy hu (fits_of_mem hfit hx),
      nextOf_set hA hb hu (Field.fits_zero _)]
    simp [hub]
  · unfold prevOf
    simp only [get_setNextOf hA hx hu (fits_of_mem hfit hy), get_setPrevOf hA hy hu (fits_of_mem hfit hx),
      get_set hA hb hu (Field.fits_zero _)]
    simp [hub]

end Remove

/-! ## Splitting -/

theorem splitAndUse_eq (h : Allocator) (b need : ℕ) :
    h.splitAndUse b need =
      if headerSize + minBlockSize ≤ h.get b .size - need then
        let rest := b + headerSize + need
        let h₁ := h.carve rest (h.get b .size - need - headerSize)
        let h₂ := (h₁.set rest .next (h₁.get b .next))
        let h₃ := (h₂.set rest .prev (h₂.get b .prev))
        let h₄ := h₃.setNextOf (h₃.get b .prev) rest
        (((h₄.setPrevOf (h₄.get b .next) rest).set rest .free 1).set b .size need).claim b
      else (h.removeFreeBlock b).claim b := by
  unfold splitAndUse carve claim setNextOf setPrevOf
  dsimp only
  by_cases hl : headerSize + minBlockSize ≤ h.get b .size - need
  · rw [if_pos hl, if_pos hl]
  · rw [if_neg hl, if_neg hl]

section Split

variable {A : Set ℕ} (hA : ApartOn A) (hfit : ∀ u ∈ A, Fits .next u) {h : Allocator}
  {b u rest size x y : ℕ}

include hA

theorem stamped_get (hr : rest ∈ A) (hs : Fits .size size) (hu : u ∈ A) (g : Field) :
    (((((h.set rest .size size).set rest .magic blockMagic).set rest .next 0).set rest .prev 0).set
      rest .free 0).get u g =
      if u = rest then (if g = .size then size else if g = .magic then blockMagic else 0)
      else h.get u g := by
  have hm : Fits .magic blockMagic := by norm_num [Field.width]
  rw [get_set hA hr hu (Field.fits_zero _), get_set hA hr hu (Field.fits_zero _),
    get_set hA hr hu (Field.fits_zero _), get_set hA hr hu hm, get_set hA hr hu hs]
  by_cases hur : u = rest
  · cases g <;> simp [hur]
  · simp [hur]

theorem carve_get (hr : rest ∈ A) (hs : Fits .size size)
    (hfoot : ∀ u ∈ A, rest + headerSize + size ≤ u ∨
      u + headerSize ≤ rest + headerSize + size - footerSize) (h4 : footerSize ≤ size)
    (hu : u ∈ A) (g : Field) :
    (h.carve rest size).get u g =
      if u = rest then (if g = .size then size else if g = .magic then blockMagic else 0)
      else h.get u g := by
  unfold carve
  rw [get_writeFooter, stamped_get hA hr hs hu]
  have := hfoot u hu
  unfold blockFooter
  rw [stamped_get hA hr hs hr, if_pos rfl, if_pos rfl]
  omega

theorem cleared_get (hb : b ∈ A) (hu : u ∈ A) (g : Field) :
    (((h.set b .free 0).set b .next 0).set b .prev 0).get u g =
      if u = b ∧ g ≠ .size ∧ g ≠ .magic then 0 else h.get u g := by
  rw [get_set hA hb hu (Field.fits_zero _), get_set hA hb hu (Field.fits_zero _),
    get_set hA hb hu (Field.fits_zero _)]
  cases g <;> simp

theorem claim_get (hb : b ∈ A) (hs : h.get b .size = size) (h4 : footerSize ≤ size)
    (hfoot : ∀ u ∈ A, b + headerSize + size ≤ u ∨
      u + headerSize ≤ b + headerSize + size - footerSize) (hu : u ∈ A) (g : Field) :
    (h.claim b).get u g =
      if u = b ∧ g ≠ .size ∧ g ≠ .magic then 0 else h.get u g := by
  unfold claim
  rw [get_writeFooter, cleared_get hA hb hu]
  have := hfoot u hu
  unfold blockFooter
  rw [cleared_get hA hb hb, if_neg (by simp), hs]
  omega

variable (hr : rest ∈ A) (hx : x ≠ 0 → x ∈ A) (hy : y ≠ 0 → y ∈ A)

include hfit hr hx hy

theorem relink_get (hu : u ∈ A) :
    (h.relink rest x y).get u .size = h.get u .size ∧
      (h.relink rest x y).get u .magic = h.get u .magic ∧
      ((h.relink rest x y).get u .free = if u = rest then 1 else h.get u .free) ∧
      (h.relink rest x y).get u .prev =
        if u = y then rest else if u = rest then x else h.get u .prev := by
  have hr' := hfit rest hr
  unfold relink
  simp only [get_setNextOf hA hx hu hr', get_setPrevOf hA hy hu hr',
    get_set hA hr hu (show Fits .prev x from fits_of_mem hfit hx), get_set hA hr hu (fits_of_mem hfit hy),
    get_set hA hr hu fits_free_one]
  simp

theorem relink_nextOf (hu : u ≠ 0 → u ∈ A) :
    (h.relink rest x y).nextOf u =
      if u = x then rest else if u = rest then y else h.nextOf u := by
  have hr' := hfit rest hr
  unfold relink
  simp only [nextOf_setNextOf hA hx hu hr', nextOf_setPrevOf hA hy hu hr',
    nextOf_set hA hr hu (show Fits .prev x from fits_of_mem hfit hx), nextOf_set hA hr hu (fits_of_mem hfit hy),
    nextOf_set hA hr hu fits_free_one]
  simp

end Split

/-! ## Merging -/

/-- Let `b` take over its successor `c`, which `y` follows. -/
def absorb (h : Allocator) (b c size y : ℕ) : Allocator :=
  (((h.set b .size size).set b .next y).setPrevOf y b).set c .magic absorbedMagic

section Merge

variable {A : Set ℕ} (hA : ApartOn A) (hfit : ∀ u ∈ A, Fits .next u) {h : Allocator}
  {b c u size y : ℕ}

include hA

theorem tryMergeWithNext_eq (hb : b ∈ A) (hc : c ∈ A) (hbc : c ≠ b) (hnext : h.get b .next = c)
    (hadj : b + headerSize + h.get b .size = c) (hy : h.get c .next = y)
    (hs : Fits .size (h.get b .size + (headerSize + h.get c .size))) :
    h.tryMergeWithNext b = h.absorb b c (h.get b .size + (headerSize + h.get c .size)) y := by
  have hy' : Fits .next y := hy ▸ fits_get h c .next
  have hread : (h.set b .size (h.get b .size + (headerSize + h.get c .size))).get c .next = y := by
    rw [get_set hA hb hc hs, if_neg (by simp), hy]
  have hread' : ((h.set b .size (h.get b .size + (headerSize + h.get c .size))).set b .next y).get
      c .next = y := by
    rw [get_set hA hb hc hy', if_neg (by simp [hbc]), hread]
  unfold tryMergeWithNext
  simp only [hnext]
  rw [if_neg (hA.ne_zero c hc), if_neg (not_not.mpr hadj), hread, hread']
  rfl

include hfit

section

variable (hb : b ∈ A) (hc : c ∈ A) (hy : y ≠ 0 → y ∈ A) (hs : Fits .size size)

include hb hc hy hs

theorem absorb_get (hu : u ∈ A) :
    ((h.absorb b c size y).get u .size = if u = b then size else h.get u .size) ∧
      ((h.absorb b c size y).get u .magic = if u = c then absorbedMagic else h.get u .magic) ∧
      (h.absorb b c size y).get u .free = h.get u .free ∧
      (h.absorb b c size y).get u .prev = if u = y then b else h.get u .prev := by
  unfold absorb
  simp only [get_setPrevOf hA hy hu (hfit b hb), get_set hA hb hu hs, get_set hA hb hu (fits_of_mem hfit hy),
    get_set hA hc hu (show Fits .magic absorbedMagic by norm_num [Field.width])]
  simp

theorem absorb_nextOf (hu : u ≠ 0 → u ∈ A) :
    (h.absorb b c size y).nextOf u = if u = b then y else h.nextOf u := by
  unfold absorb
  simp only [nextOf_setPrevOf hA hy hu (hfit b hb), nextOf_set hA hb hu hs,
    nextOf_set hA hb hu (fits_of_mem hfit hy),
    nextOf_set hA hc hu (show Fits .magic absorbedMagic by norm_num [Field.width])]
  simp

end

end Merge

/-! ## What the operations touch -/

section Touched

variable {A : Set ℕ} {h : Allocator} {b c x y rest : ℕ}

theorem touches_link (hb : b ∈ A) (hx : x ≠ 0 → x ∈ A) (hy : y ≠ 0 → y ∈ A) :
    Touches (headerBytes A) h (h.link b x y) :=
  ((((touches_set h hb _ _).trans (touches_set _ hb _ _)).trans (touches_set _ hb _ _)).trans
    (touches_setPrevOf _ hy _)).trans (touches_setNextOf _ hx _)

theorem touches_unlink (hb : b ∈ A) (hx : x ≠ 0 → x ∈ A) (hy : y ≠ 0 → y ∈ A) :
    Touches (headerBytes A) h (h.unlink b x y) :=
  ((((touches_setNextOf h hx _).trans (touches_setPrevOf _ hy _)).trans
    (touches_set _ hb _ _)).trans (touches_set _ hb _ _)).trans (touches_set _ hb _ _)

theorem touches_relink (hr : rest ∈ A) (hx : x ≠ 0 → x ∈ A) (hy : y ≠ 0 → y ∈ A) :
    Touches (headerBytes A) h (h.relink rest x y) :=
  ((((touches_set h hr _ _).trans (touches_set _ hr _ _)).trans (touches_setNextOf _ hx _)).trans
    (touches_setPrevOf _ hy _)).trans (touches_set _ hr _ _)

theorem touches_absorb (size : ℕ) (hb : b ∈ A) (hc : c ∈ A) (hy : y ≠ 0 → y ∈ A) :
    Touches (headerBytes A) h (h.absorb b c size y) :=
  (((touches_set h hb _ _).trans (touches_set _ hb _ _)).trans (touches_setPrevOf _ hy _)).trans
    (touches_set _ hc _ _)

/-- The bytes of the footer of a block at `b` of the given size. -/
def footerBytes (b size : ℕ) : Set ℕ :=
  {i | b + headerSize + size - footerSize ≤ i ∧ i < b + headerSize + size}

variable {size : ℕ}

theorem touches_writeFooter_of_size (hs : h.get b .size = size) :
    Touches (footerBytes b size) h (h.writeFooter b) ∧
      readLE (h.writeFooter b).mem footerSize (b + headerSize + size - footerSize) =
        footerMagic := by
  have hf : h.blockFooter b = b + headerSize + size - footerSize := by
    unfold blockFooter
    rw [hs]
  constructor
  · apply touches_writeFooter
    rw [hf]
    intro i hi hi'
    refine ⟨hi, ?_⟩
    unfold headerSize footerSize at *
    omega
  · rw [← hf]
    exact readLE_writeFooter h b

theorem touches_claim (hA : ApartOn A) (hb : b ∈ A) (hs : h.get b .size = size) :
    Touches (headerBytes A ∪ footerBytes b size) h (h.claim b) ∧
      readLE (h.claim b).mem footerSize (b + headerSize + size - footerSize) = footerMagic := by
  have hs' : (((h.set b .free 0).set b .next 0).set b .prev 0).get b .size = size := by
    rw [cleared_get hA hb hb, if_neg (by simp), hs]
  obtain ⟨ht, hfoot⟩ := touches_writeFooter_of_size hs'
  have hsets := ((touches_set h hb .free 0).trans (touches_set _ hb .next 0)).trans
    (touches_set _ hb .prev 0)
  exact ⟨(hsets.mono Set.subset_union_left).trans (ht.mono Set.subset_union_right), hfoot⟩

theorem touches_carve (hA : ApartOn A) (hr : rest ∈ A) (hs : Fits .size size) :
    Touches (headerBytes A ∪ footerBytes rest size) h (h.carve rest size) ∧
      readLE (h.carve rest size).mem footerSize (rest + headerSize + size - footerSize) =
        footerMagic := by
  have hs' := stamped_get (h := h) hA hr hs hr .size
  rw [if_pos rfl, if_pos rfl] at hs'
  obtain ⟨ht, hfoot⟩ := touches_writeFooter_of_size hs'
  have hsets := ((((touches_set h hr .size size).trans (touches_set _ hr .magic blockMagic)).trans
    (touches_set _ hr .next 0)).trans (touches_set _ hr .prev 0)).trans (touches_set _ hr .free 0)
  exact ⟨(hsets.mono Set.subset_union_left).trans (ht.mono Set.subset_union_right), hfoot⟩

end Touched

/-! ## Splitting, in one step -/

/-- Split `rest` off the block `b`, which stood between `x` and `y`. -/
def splitOff (h : Allocator) (b rest need size x y : ℕ) : Allocator :=
  (((h.carve rest size).relink rest x y).set b .size need).claim b

section SplitOff

variable {A : Set ℕ} (hA : ApartOn A) (hfit : ∀ u ∈ A, Fits .next u) {h : Allocator}
  {b u rest need size x y : ℕ}

include hA hfit

theorem splitAndUse_eq_claim (hb : b ∈ A) (hr : rest ∈ A) (hrest : rest = b + headerSize + need)
    (hleft : headerSize + minBlockSize ≤ h.get b .size - need)
    (hsize : size = h.get b .size - need - headerSize)
    (hfoot : ∀ u ∈ A, rest + headerSize + size ≤ u ∨
      u + headerSize ≤ rest + headerSize + size - footerSize)
    (hx : h.get b .prev = x) (hy : h.get b .next = y) (hxA : x ≠ 0 → x ∈ A) (hxb : x ≠ b) :
    h.splitAndUse b need = h.splitOff b rest need size x y := by
  have hx' : Fits .prev x := hx ▸ fits_get h b .prev
  have hy' : Fits .next y := hy ▸ fits_get h b .next
  have hs : Fits .size size := by
    have := fits_get h b .size
    omega
  have hbr : b ≠ rest := by
    rw [hrest]
    unfold headerSize
    omega
  have h4 : footerSize ≤ size := by
    unfold minBlockSize footerSize at *
    omega
  have hcarve : ∀ g, (h.carve rest size).get b g = h.get b g := fun g => by
    rw [carve_get hA hr hs hfoot h4 hb, if_neg hbr]
  have h₂ : ((h.carve rest size).set rest .next y).get b .prev = x := by
    rw [get_set hA hr hb hy', if_neg (by simp), hcarve, hx]
  have h₃ : (((h.carve rest size).set rest .next y).set rest .prev x).get b .prev = x := by
    rw [get_set hA hr hb hx', if_neg (by simp [hbr]), h₂]
  have h₄ : ((((h.carve rest size).set rest .next y).set rest .prev x).setNextOf x rest).get
      b .next = y := by
    rw [get_setNextOf hA hxA hb (hfit rest hr), if_neg (by simp [hxb.symm]),
      get_set hA hr hb hx', if_neg (by simp), get_set hA hr hb hy', if_neg (by simp [hbr]),
      hcarve, hy]
  rw [splitAndUse_eq, if_pos hleft]
  dsimp only
  rw [← hrest, ← hsize, hcarve, hy, h₂, h₃, h₄]
  rfl

end SplitOff

/-- The setting of a split: the headers `A` after it, those of `b` and `rest` among them, and
the neighbours `x` and `y` on the list. -/
structure SplitSite (A : Set ℕ) (b rest need size x y : ℕ) : Prop where
  apart : ApartOn A
  fits : ∀ u ∈ A, Fits .next u
  mem : b ∈ A
  rest_mem : rest ∈ A
  ne : b ≠ rest
  size_fits : Fits .size size
  need_fits : Fits .size need
  need_ge : footerSize ≤ need
  size_ge : footerSize ≤ size
  rest_footer : ∀ u ∈ A, rest + headerSize + size ≤ u ∨
    u + headerSize ≤ rest + headerSize + size - footerSize
  footer : ∀ u ∈ A, b + headerSize + need ≤ u ∨
    u + headerSize ≤ b + headerSize + need - footerSize
  prev_mem : x ≠ 0 → x ∈ A
  next_mem : y ≠ 0 → y ∈ A
  prev_fits : Fits .next x
  next_fits : Fits .next y

namespace SplitSite

variable {A : Set ℕ} {h : Allocator} {b u rest need size x y : ℕ}
  (hS : SplitSite A b rest need size x y)

include hS

theorem size_eq : (((h.carve rest size).relink rest x y).set b .size need).get b .size = need := by
  rw [get_set hS.apart hS.mem hS.mem hS.need_fits, if_pos ⟨rfl, rfl⟩]

theorem carve_eq (hu : u ∈ A) (hur : u ≠ rest) (g : Field) :
    (h.carve rest size).get u g = h.get u g := by
  rw [carve_get hS.apart hS.rest_mem hS.size_fits hS.rest_footer hS.size_ge hu, if_neg hur]

theorem fields (hu : u ∈ A) :
    ((h.splitOff b rest need size x y).get u .size =
        if u = b then need else if u = rest then size else h.get u .size) ∧
      ((h.splitOff b rest need size x y).get u .magic =
        if u = rest then blockMagic else h.get u .magic) ∧
      ((h.splitOff b rest need size x y).get u .free =
        if u = b then 0 else if u = rest then 1 else h.get u .free) := by
  obtain ⟨hs₁, hm₁, hf₁, -⟩ := relink_get (h := h.carve rest size) hS.apart hS.fits hS.rest_mem
    hS.prev_mem hS.next_mem hu
  unfold splitOff
  simp only [claim_get hS.apart hS.mem hS.size_eq hS.need_ge hS.footer hu,
    get_set hS.apart hS.mem hu hS.need_fits, hs₁, hm₁, hf₁,
    carve_get hS.apart hS.rest_mem hS.size_fits hS.rest_footer hS.size_ge hu]
  by_cases hub : u = b
  · subst hub
    simp [hS.ne]
  · simp only [hub, false_and, if_false, reduceCtorEq, if_true]
    refine ⟨trivial, trivial, ?_⟩
    by_cases hur : u = rest <;> simp [hur]

theorem links :
    (∀ u, (u ≠ 0 → u ∈ A) → u ≠ b → (h.splitOff b rest need size x y).nextOf u =
      if u = x then rest else if u = rest then y else h.nextOf u) ∧
    ∀ u ∈ A, u ≠ b → (h.splitOff b rest need size x y).prevOf u =
      if u = y then rest else if u = rest then x else h.prevOf u := by
  unfold splitOff
  constructor
  · intro u hu hub
    rw [nextOf_congr (claim_head _ b) fun h0 => by
      rw [claim_get hS.apart hS.mem hS.size_eq hS.need_ge hS.footer (hu h0),
        if_neg (by simp [hub])]]
    rw [nextOf_set hS.apart hS.mem hu hS.need_fits, if_neg (by simp),
      relink_nextOf hS.apart hS.fits hS.rest_mem hS.prev_mem hS.next_mem hu]
    by_cases hur : u = rest
    · simp [hur]
    · rw [nextOf_congr (carve_head h rest size) fun h0 => hS.carve_eq (hu h0) hur _]
  · intro u hu hub
    unfold prevOf
    rw [claim_get hS.apart hS.mem hS.size_eq hS.need_ge hS.footer hu, if_neg (by simp [hub]),
      get_set hS.apart hS.mem hu hS.need_fits, if_neg (by simp),
      (relink_get hS.apart hS.fits hS.rest_mem hS.prev_mem hS.next_mem hu).2.2.2]
    by_cases hur : u = rest
    · simp [hur]
    · rw [hS.carve_eq hu hur]

theorem touches (hfr : footerBytes rest size ∩ footerBytes b need = ∅) :
    Touches (headerBytes A ∪ (footerBytes b need ∪ footerBytes rest size)) h
        (h.splitOff b rest need size x y) ∧
      readLE (h.splitOff b rest need size x y).mem footerSize
        (b + headerSize + need - footerSize) = footerMagic ∧
      readLE (h.splitOff b rest need size x y).mem footerSize
        (rest + headerSize + size - footerSize) = footerMagic := by
  obtain ⟨htc, hfc⟩ := touches_carve (h := h) hS.apart hS.rest_mem hS.size_fits
  obtain ⟨htk, hfk⟩ := touches_claim hS.apart hS.mem (hS.size_eq (h := h))
  have htr := (touches_relink (h := h.carve rest size) hS.rest_mem hS.prev_mem hS.next_mem).trans
    (touches_set _ hS.mem .size need)
  have hlate : Touches (headerBytes A ∪ footerBytes b need) (h.carve rest size)
      (h.splitOff b rest need size x y) := (htr.mono Set.subset_union_left).trans htk
  refine ⟨?_, hfk, ?_⟩
  · refine (htc.mono (Set.union_subset_union_right _ Set.subset_union_right)).trans
      (hlate.mono (Set.union_subset_union_right _ Set.subset_union_left))
  · rw [hlate.readLE_eq, hfc]
    intro i hi hi'
    have hmem : i ∈ footerBytes rest size := by
      refine ⟨hi, ?_⟩
      unfold headerSize footerSize at *
      omega
    rintro (⟨u, hu, hui, hui'⟩ | hb')
    · have := hS.rest_footer u hu
      have := hmem.2
      omega
    · exact Set.notMem_empty i (hfr ▸ ⟨hmem, hb'⟩)

end SplitSite

end Allocator

end MinimalOS.Heap
