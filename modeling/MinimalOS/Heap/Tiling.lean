import Mathlib.Algebra.BigOperators.Group.List.Basic
import MinimalOS.Heap.Links

/-!
# The heap as a row of blocks

What the memory of the heap stands for: a list of blocks, each with its address, payload size
and free flag, that tile the heap from start to end.
-/

namespace MinimalOS.Heap

open ByteMem LinkedChain List

/-- A block: the address of its header, its payload bytes (with the footer) and its flag. -/
structure Block where
  addr : ℕ
  size : ℕ
  free : Bool
deriving DecidableEq, Repr

def Block.stop (b : Block) : ℕ := b.addr + headerSize + b.size

/-- The blocks lie side by side from `s` to `e`. -/
def Tiles : ℕ → List Block → ℕ → Prop
  | s, [], e => s = e
  | s, b :: bs, e => b.addr = s ∧ Tiles b.stop bs e

variable {s e : ℕ} {bs pre post : List Block} {b c : Block}

theorem tiles_append {cs : List Block} :
    Tiles s (bs ++ cs) e ↔ ∃ m, Tiles s bs m ∧ Tiles m cs e := by
  induction bs generalizing s with
  | nil => simp [Tiles]
  | cons b bs ih =>
    rw [cons_append, Tiles, ih]
    constructor
    · rintro ⟨h, m, h₁, h₂⟩
      exact ⟨m, ⟨h, h₁⟩, h₂⟩
    · rintro ⟨m, ⟨h, h₁⟩, h₂⟩
      exact ⟨h, m, h₁, h₂⟩

section

variable (h : Tiles s bs e)

include h

theorem Tiles.le : s ≤ e := by
  induction bs generalizing s with
  | nil => exact Nat.le_of_eq h
  | cons b bs ih =>
    have := ih h.2
    have := h.1
    unfold Block.stop at *
    omega

theorem Tiles.mem (hb : b ∈ bs) : s ≤ b.addr ∧ b.stop ≤ e := by
  obtain ⟨pre, post, rfl⟩ := append_of_mem hb
  obtain ⟨m, h₁, h₂, h₃⟩ := tiles_append.mp h
  exact ⟨h₂ ▸ h₁.le, h₃.le⟩

theorem Tiles.pairwise : bs.Pairwise fun b c => b.stop ≤ c.addr := by
  induction bs generalizing s with
  | nil => exact .nil
  | cons b bs ih => exact .cons (fun c hc => (h.2.mem hc).1) (ih h.2)

theorem Tiles.apart (hb : b ∈ bs) (hc : c ∈ bs) (hne : b.addr ≠ c.addr) :
    b.stop ≤ c.addr ∨ c.stop ≤ b.addr := by
  induction bs generalizing s with
  | nil => simp at hb
  | cons d bs ih =>
    rcases mem_cons.mp hb with rfl | hb' <;> rcases mem_cons.mp hc with rfl | hc'
    · exact absurd rfl hne
    · exact Or.inl (h.2.mem hc').1
    · exact Or.inr (h.2.mem hb').1
    · exact ih h.2 hb' hc'

theorem Tiles.aligned (hs : s % alignment = 0) (hbs : ∀ b ∈ bs, b.size % alignment = 0) :
    ∀ b ∈ bs, b.addr % alignment = 0 := by
  induction bs generalizing s with
  | nil => simp
  | cons b bs ih =>
    have hb := hbs b (by simp)
    have haddr := h.1
    refine forall_mem_cons.mpr ⟨haddr ▸ hs, ih h.2 ?_ fun c hc => hbs c (by simp [hc])⟩
    unfold Block.stop alignment headerSize at *
    omega

theorem Tiles.aligned_end (hs : s % alignment = 0) (hbs : ∀ b ∈ bs, b.size % alignment = 0) :
    e % alignment = 0 := by
  induction bs generalizing s with
  | nil =>
    have hse : s = e := h
    exact hse ▸ hs
  | cons b bs ih =>
    have hb := hbs b (by simp)
    have haddr := h.1
    refine ih h.2 ?_ fun c hc => hbs c (by simp [hc])
    unfold Block.stop alignment headerSize at *
    omega

theorem Tiles.length_le (hbs : ∀ b ∈ bs, minBlockSize ≤ b.size) : s + bs.length * 64 ≤ e := by
  induction bs generalizing s with
  | nil => exact Nat.le_of_eq (by simpa [Tiles] using h)
  | cons b bs ih =>
    have hb := hbs b (by simp)
    have haddr := h.1
    have := ih h.2 fun c hc => hbs c (by simp [hc])
    rw [length_cons]
    unfold Block.stop headerSize minBlockSize at *
    omega

end

def addrs (bs : List Block) : Set ℕ := {a | ∃ b ∈ bs, b.addr = a}

theorem Block.addr_mem (hb : b ∈ bs) : b.addr ∈ addrs bs :=
  ⟨b, hb, rfl⟩

theorem Tiles.apartOn (h : Tiles s bs e) (hs : s ≠ 0) : ApartOn (addrs bs) where
  ne_zero := by
    rintro _ ⟨b, hb, rfl⟩
    have := (h.mem hb).1
    omega
  apart := by
    rintro _ ⟨b, hb, rfl⟩ _ ⟨c, hc, rfl⟩ hne
    have := h.apart hb hc hne
    unfold Block.stop at this
    omega

theorem Tiles.footer_clear (h : Tiles s bs e) (hbs : ∀ b ∈ bs, minBlockSize ≤ b.size) (hb : b ∈ bs)
    {u : ℕ} (hu : u ∈ addrs bs) : b.stop ≤ u ∨ u + headerSize ≤ b.stop - footerSize := by
  obtain ⟨c, hc, rfl⟩ := hu
  have hs := hbs b hb
  by_cases hbc : b.addr = c.addr
  · unfold Block.stop footerSize minBlockSize at *
    omega
  · have := h.apart hb hc hbc
    unfold Block.stop headerSize footerSize at *
    omega

theorem mem_insert_mid (mid : List Block) (h : c ∈ pre ++ post) : c ∈ pre ++ (mid ++ post) :=
  (mem_append.mp h).elim (mem_append_left _) fun h =>
    mem_append_right _ (mem_append_right _ h)

theorem mem_row : c ∈ pre ++ b :: post ↔ c = b ∨ c ∈ pre ++ post := by
  rw [mem_append, mem_cons, mem_append, or_left_comm]

/-! ## Free and live blocks -/

def freeBlocks (bs : List Block) : List Block := bs.filter (·.free)

def liveBlocks (bs : List Block) : List Block := bs.filter (!·.free)

/-- The addresses the free list should hold. -/
def freeAddrs (bs : List Block) : List ℕ := (freeBlocks bs).map (·.addr)

theorem freeAddrs_append (bs cs : List Block) :
    freeAddrs (bs ++ cs) = freeAddrs bs ++ freeAddrs cs := by
  simp [freeAddrs, freeBlocks]

theorem freeAddrs_cons (b : Block) (bs : List Block) :
    freeAddrs (b :: bs) = if b.free then b.addr :: freeAddrs bs else freeAddrs bs := by
  unfold freeAddrs freeBlocks
  cases hb : b.free <;> simp [hb]

theorem mem_freeAddrs {a : ℕ} : a ∈ freeAddrs bs ↔ ∃ b ∈ bs, b.free = true ∧ b.addr = a := by
  simp [freeAddrs, freeBlocks, and_assoc]

theorem freeAddrs_subset {a : ℕ} (h : a ∈ freeAddrs bs) : a ∈ addrs bs := by
  obtain ⟨b, hb, -, rfl⟩ := mem_freeAddrs.mp h
  exact ⟨b, hb, rfl⟩

theorem Tiles.freeAddrs_pairwise (h : Tiles s bs e) : (freeAddrs bs).Pairwise (· < ·) := by
  unfold freeAddrs
  rw [pairwise_map]
  refine (h.pairwise.filter _).imp ?_
  intro b c hbc
  unfold Block.stop headerSize at hbc
  omega

theorem Tiles.freeAddrs_lt (h : Tiles s (pre ++ b :: post) e) :
    (∀ u ∈ freeAddrs pre, u < b.addr) ∧ ∀ u ∈ freeAddrs post, b.addr < u := by
  have hpair := h.pairwise
  rw [pairwise_append, pairwise_cons] at hpair
  constructor
  · intro u hu
    obtain ⟨c, hc, -, rfl⟩ := mem_freeAddrs.mp hu
    have := hpair.2.2 c hc b (by simp)
    unfold Block.stop headerSize at this
    omega
  · intro u hu
    obtain ⟨c, hc, -, rfl⟩ := mem_freeAddrs.mp hu
    have := hpair.2.1.1 c hc
    unfold Block.stop headerSize at this
    omega

theorem Tiles.setFree (f : Bool)
    (ht : Tiles s (pre ++ b :: post) e) : Tiles s (pre ++ { b with free := f } :: post) e := by
  obtain ⟨m, h₁, h₂⟩ := tiles_append.mp ht
  exact tiles_append.mpr ⟨m, h₁, h₂⟩

theorem Tiles.addr_ne (h : Tiles s (pre ++ b :: post) e)
    (hc : c ∈ pre ++ post) : c.addr ≠ b.addr := by
  have hpair := h.pairwise
  rw [pairwise_append, pairwise_cons] at hpair
  rcases mem_append.mp hc with hc | hc
  · have := hpair.2.2 c hc b (by simp)
    unfold Block.stop headerSize at this
    omega
  · have := hpair.2.1.1 c hc
    unfold Block.stop headerSize at this
    omega

theorem Tiles.zero_freeAddrs_nodup (h : Tiles s bs e) (hs : s ≠ 0) : (0 :: freeAddrs bs).Nodup := by
  refine nodup_cons.mpr ⟨fun h0 => ?_, h.freeAddrs_pairwise.imp fun hlt => hlt.ne⟩
  exact (h.apartOn hs).ne_zero 0 (freeAddrs_subset h0) rfl

/-- The place of the block `b` on the free list, between the free blocks before it and those
behind it in the row. -/
structure Place (pre post : List Block) (b : Block) : Prop where
  sub : ∀ u ∈ freeAddrs pre ++ freeAddrs post, u ∈ addrs (pre ++ b :: post)
  ne : ∀ u ∈ 0 :: (freeAddrs pre ++ freeAddrs post), u ≠ b.addr
  nodup : (0 :: (freeAddrs pre ++ freeAddrs post)).Nodup

theorem Tiles.place (h : Tiles s (pre ++ b :: post) e) (hs : s ≠ 0) : Place pre post b := by
  have hsub : (freeAddrs pre ++ freeAddrs post).Sublist (freeAddrs (pre ++ b :: post)) := by
    rw [freeAddrs_append, freeAddrs_cons]
    split_ifs <;> simp
  obtain ⟨hlo, hhi⟩ := h.freeAddrs_lt
  refine ⟨fun u hu => freeAddrs_subset (hsub.subset hu), fun u hu => ?_,
    (h.zero_freeAddrs_nodup hs).sublist (hsub.cons_cons 0)⟩
  rw [mem_cons, mem_append] at hu
  rcases hu with rfl | hu | hu
  · exact ((h.apartOn hs).ne_zero _ (Block.addr_mem (by simp))).symm
  · exact (hlo u hu).ne
  · exact (hhi u hu).ne'

theorem Tiles.fits (h : Tiles s bs e) (he : e < 2 ^ 64) : ∀ u ∈ addrs bs, Fits .next u := by
  rintro _ ⟨b, hb, rfl⟩
  have := (h.mem hb).2
  unfold Block.stop at *
  show b.addr < 256 ^ 8
  omega

theorem neighbours {A : Set ℕ} {l₁ l₂ : List ℕ} (hsub : ∀ u ∈ l₁ ++ l₂, u ∈ A) :
    (l₁.getLastD 0 ≠ 0 → l₁.getLastD 0 ∈ A) ∧ (l₂.headD 0 ≠ 0 → l₂.headD 0 ∈ A) :=
  ⟨fun h0 => hsub _ (mem_append_left _ ((getLastD_eq_or_mem l₁).resolve_left h0)),
    fun h0 => hsub _ (mem_append_right _ ((headD_eq_or_mem l₂).resolve_left h0))⟩

theorem freeAddrs_length_le (bs : List Block) : (freeAddrs bs).length ≤ bs.length := by
  unfold freeAddrs
  rw [length_map]
  exact length_filter_le _ _

end MinimalOS.Heap
