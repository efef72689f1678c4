import MinimalOS.Partition.Gpt

/-!
# Sectors and buffers

What a transfer puts on a disk, and what reading it gives back.
-/

namespace MinimalOS.Partition

open List Function

variable {ss : ℕ}

@[simp]
theorem apply_sectors (d : Disk ss) (log : Log ss) : (d.apply log).sectors = d.sectors := by
  induction log generalizing d with
  | nil => rfl
  | cons w log ih => exact ih (d.put w)

theorem apply_append (d : Disk ss) (a b : Log ss) : d.apply (a ++ b) = (d.apply a).apply b :=
  foldl_append

variable {log : Log ss} {lba count i n : ℕ} {buf : List UInt8} {d : Disk ss}

/-- A sector that is not written keeps its bytes. -/
theorem apply_data_of_notMem (d : Disk ss) (h : ∀ w ∈ log, w.1 ≠ lba) :
    (d.apply log).data lba = d.data lba := by
  induction log generalizing d with
  | nil => rfl
  | cons w log ih =>
    have htail := ih (d.put w) fun w' hw' => h w' (mem_cons_of_mem _ hw')
    exact htail.trans (update_of_ne (h w mem_cons_self).symm _ _)

theorem mem_transfer {w : ℕ × Sector ss} (h : w ∈ transfer lba count buf) :
    lba ≤ w.1 ∧ w.1 < lba + count := by
  obtain ⟨i, hi, rfl⟩ := mem_map.mp h
  have := mem_range.mp hi
  omega

/-- Sector `i` of a transfer gets its part of the buffer. -/
theorem apply_transfer (d : Disk ss) (lba : ℕ) (buf : List UInt8) (hi : i < count) :
    (d.apply (transfer lba count buf)).data (lba + i) = sectorOf buf i := by
  induction count with
  | zero => omega
  | succ n ih =>
    have hsplit : (transfer lba (n + 1) buf : Log ss) =
        transfer lba n buf ++ [(lba + n, sectorOf buf n)] := by
      rw [transfer, range_succ, map_append]
      rfl
    rw [hsplit, apply_append]
    rcases Nat.lt_succ_iff_lt_or_eq.mp hi with hlt | rfl
    · rw [← ih hlt]
      exact apply_data_of_notMem _ (by simp; omega)
    · exact update_self _ _ _

theorem blockdevWrite_eq (d : Disk ss) (buf : List UInt8) (hc : 0 < count)
    (h : lba + count ≤ d.sectors) :
    blockdevWrite d lba count buf = some (transfer lba count buf) := by
  rw [blockdevWrite, if_neg (by omega), if_neg (by omega)]

theorem blockdevWrite_some (hc : 0 < count) (h : blockdevWrite d lba count buf = some log) :
    lba + count ≤ d.sectors ∧ log = transfer lba count buf := by
  rw [blockdevWrite, if_neg (by omega)] at h
  split at h
  · simp at h
  · exact ⟨by omega, (Option.some.inj h).symm⟩

theorem flatMap_sectorOf (buf : List UInt8) (n : ℕ) :
    ((List.range n).flatMap fun i => (sectorOf buf i : Sector ss).toList) =
      (List.range (n * ss)).map fun k => buf.getD k 0 := by
  induction n with
  | zero => simp
  | succ n ih =>
    rw [range_succ, flatMap_append, Nat.succ_mul, range_add, map_append,
      flatMap_singleton, sectorOf, Vector.toList_ofFn, ofFn_eq_map, map_map]
    congr 1
    rw [← map_coe_finRange_eq_range, map_map]
    rfl

theorem map_getD_range (buf : List UInt8) (h : buf.length ≤ n) :
    ((List.range n).map fun k => buf.getD k 0) = buf ++ List.replicate (n - buf.length) 0 := by
  apply ext_getElem
  · simp
    omega
  · intro i h1 h2
    rw [getElem_map, getElem_range, getD_eq_getElem?_getD, getElem_append]
    split
    · rename_i hi
      rw [List.getElem?_eq_getElem hi]
      rfl
    · rw [List.getElem?_eq_none (by omega), getElem_replicate]
      rfl

/-- Sectors that hold a buffer read as the buffer, with zeros behind it. -/
theorem blockdevRead_buffer (lba count : ℕ) (buf : List UInt8) (hc : 0 < count)
    (hroom : lba + count ≤ d.sectors) (hlen : buf.length ≤ count * ss)
    (h : ∀ i < count, d.data (lba + i) = sectorOf buf i) :
    blockdevRead d lba count = some (buf ++ List.replicate (count * ss - buf.length) 0) := by
  rw [blockdevRead, if_neg (by omega), if_neg (by omega), ← map_getD_range buf hlen,
    ← flatMap_sectorOf]
  refine congrArg some (flatMap_congr fun i hi => ?_)
  rw [h i (mem_range.mp hi)]

theorem apply_transfers {α : Type*} (d : Disk ss) {l : List α} {lba count : α → ℕ}
    {buf : α → List UInt8}
    (h : l.Pairwise fun a b => lba a + count a ≤ lba b ∨ lba b + count b ≤ lba a) {a : α}
    (ha : a ∈ l) (hi : i < count a) :
    (d.apply (l.flatMap fun a => transfer (lba a) (count a) (buf a))).data (lba a + i) =
      sectorOf (buf a) i := by
  induction l generalizing d with
  | nil => simp at ha
  | cons b l ih =>
    obtain ⟨hb, hl⟩ := pairwise_cons.mp h
    rw [flatMap_cons, apply_append]
    rcases mem_cons.mp ha with rfl | ha
    · refine (apply_data_of_notMem _ fun w hw => ?_).trans (apply_transfer d _ _ hi)
      obtain ⟨c, hc, hw⟩ := mem_flatMap.mp hw
      have := mem_transfer hw
      have := hb c hc
      omega
    · exact ih _ hl ha

/-! ## Transfers in pieces -/

/-- A transfer in two parts. -/
theorem transfer_split (lba : ℕ) {m : ℕ} (buf : List UInt8) (h : m ≤ n) :
    (transfer lba n buf : Log ss) =
      transfer lba m buf ++ transfer (lba + m) (n - m) (buf.drop (m * ss)) := by
  obtain ⟨k, rfl⟩ := Nat.exists_eq_add_of_le h
  rw [Nat.add_sub_cancel_left, transfer, range_add, map_append,
    map_map]
  congr 1
  refine map_congr_left fun i _ => ?_
  simp only [comp_apply, Prod.mk.injEq, sectorOf, getD_eq_getElem?_getD,
    List.getElem?_drop, true_and, add_assoc]
  congr 1
  funext j
  rw [add_mul, add_assoc]

theorem transfer_take (lba : ℕ) {k : ℕ} (buf : List UInt8) (h : n * ss ≤ k) :
    (transfer lba n (buf.take k) : Log ss) = transfer lba n buf := by
  refine map_congr_left fun i hi => ?_
  have hi := Nat.mul_le_mul_right ss (mem_range.mp hi : i + 1 ≤ n)
  rw [Nat.succ_mul] at hi
  simp only [Prod.mk.injEq, sectorOf, getD_eq_getElem?_getD, true_and]
  congr 1
  funext j
  rw [List.getElem?_take_of_lt (by omega)]

end MinimalOS.Partition
