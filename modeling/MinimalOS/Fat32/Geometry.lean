import MinimalOS.Fat32.Builder
import MinimalOS.Partition.Sectors

/-!
# Sizes of a volume and its transfers

The sizes that `fat32_create` accepts: the FAT has room for every cluster, and the clusters end
before the device does (`geometry_good`). A FAT of `2 ^ 25 + 1` sectors covers whatever is left
to it, so the loop that grows the FAT ends, and before any of the `uint32_t` sums can wrap. The
loops that write in pieces of 64 KiB amount to one transfer each.
-/

namespace MinimalOS.Fat32

open Packed MinimalOS.Partition

variable {ss : ℕ}

/-! ## The search for a layout -/

/-- Sizes that fit one another and the volume. -/
structure Geometry.Good (ss sectors : ℕ) (g : Geometry) : Prop where
  sectorSize : ss = 512 ∨ ss = 4096
  total : g.totalSectors = sectors
  sectors_lt : sectors < 2 ^ 32
  spc_pos : 0 < g.spc
  clusterBytes_le : g.spc * ss ≤ 32768
  dataStart : g.dataStart = 32 + 2 * g.fatSectors
  room : g.dataStart + g.clusterCount * g.spc ≤ sectors
  fat : g.clusterCount + 2 ≤ g.fatSectors * (ss / 4)
  enough : 65525 ≤ g.clusterCount
  few : g.clusterCount ≤ 2 ^ 22
  clusters : (sectors - g.dataStart) / g.spc = g.clusterCount

variable {sectors spc fuel lba : ℕ} {g : Geometry} {env : Env ss} {fs : Builder ss}

theorem Geometry.Good.clusterBytes_ge (h : g.Good ss sectors) : 512 ≤ g.clusterBytes ss := by
  have hss : 512 ≤ ss := by have := h.sectorSize; omega
  exact (Nat.mul_le_mul h.spc_pos hss).trans' (by norm_num)

theorem growSpc_spec {a : ℕ} (hss : ss = 2 ^ a) (bytes fuel : ℕ) {k : ℕ} (hk : k + a ≤ 15) :
    ∃ k', growSpc ss bytes fuel (2 ^ k) = 2 ^ k' ∧ k' + a ≤ 15 := by
  induction fuel generalizing k with
  | zero => exact ⟨k, rfl, hk⟩
  | succ fuel ih =>
    rw [growSpc]
    split
    · rename_i h
      have hlt : k + a < 15 := by
        rw [hss, ← pow_add] at h
        exact (Nat.pow_lt_pow_iff_right (by norm_num)).mp (h.1.trans_eq (by norm_num))
      rw [← pow_succ]
      exact ih (by omega)
    · exact ⟨k, rfl, hk⟩

theorem growSpc_exit (bytes fuel spc : ℕ) (h : 32768 ≤ spc * 2 ^ fuel * ss) :
    ¬ (growSpc ss bytes fuel spc * ss < 32768 ∧
      maxClusters < bytes / (growSpc ss bytes fuel spc * ss)) := by
  induction fuel generalizing spc with
  | zero =>
    rw [pow_zero, mul_one] at h
    rw [growSpc]
    omega
  | succ fuel ih =>
    rw [growSpc]
    split
    · exact ih (spc * 2) (by rwa [mul_assoc spc, ← pow_succ'])
    · assumption

/-- The FAT stops to grow at `top` sectors at the latest. -/
theorem growFat_spec {avail top : ℕ} (htop : covers ss avail spc top = true) (hlt : top < 2 ^ 32)
    {fatSz : ℕ} (hle : fatSz ≤ top) (hfuel : top < fatSz + fuel) :
    ∃ f, growFat ss avail spc fuel fatSz = some f ∧ f ≤ top ∧ covers ss avail spc f = true := by
  induction fuel generalizing fatSz with
  | zero => omega
  | succ fuel ih =>
    rw [growFat]
    split
    · rename_i h
      exact ⟨fatSz, rfl, hle, h⟩
    · rename_i h
      have hne : fatSz ≠ top := fun heq => h (heq ▸ htop)
      exact ih (by omega) (by omega)

theorem covers_top (avail spc : ℕ) (hss : 128 ≤ ss / 4) :
    covers ss avail spc (2 ^ 25 + 1) = true := by
  rw [covers, decide_eq_true_eq]
  have hdiv : sub32 avail (numFats * (2 ^ 25 + 1)) / spc ≤ 2 ^ 32 - 1 :=
    (Nat.div_le_self _ _).trans (Nat.le_pred_of_lt (Nat.mod_lt _ (by norm_num)))
  omega

theorem fatSize_spec (avail : ℕ) (hss : 128 ≤ ss / 4) (hspc : 0 < spc) (havail : avail < 2 ^ 32) :
    ∃ f, fatSize ss avail spc = some f ∧ f ≤ 2 ^ 25 + 1 ∧ covers ss avail spc f = true := by
  have hden : 130 ≤ spc * (ss / 4) + numFats := by
    have := Nat.mul_le_mul hspc hss
    unfold numFats
    omega
  have hfew : avail / (spc * (ss / 4) + numFats) ≤ 2 ^ 25 :=
    (Nat.div_le_div_left hden (by norm_num)).trans (by omega)
  exact growFat_spec (covers_top avail spc hss) (by norm_num) (by split <;> omega) (by omega)

/-- A cluster has at most 32 KiB, and less only if that gives not too many. -/
theorem sectorsPerCluster_spec (sectors : ℕ) (hss : ss = 512 ∨ ss = 4096) :
    0 < sectorsPerCluster ss sectors ∧ sectorsPerCluster ss sectors * ss ≤ 32768 ∧
      ¬ (sectorsPerCluster ss sectors * ss < 32768 ∧
        maxClusters < sectors * ss / (sectorsPerCluster ss sectors * ss)) := by
  obtain ⟨a, hssa, ha⟩ : ∃ a, ss = 2 ^ a ∧ 0 + a ≤ 15 := by
    rcases hss with h | h
    · exact ⟨9, h, by norm_num⟩
    · exact ⟨12, h, by norm_num⟩
  obtain ⟨k, hspc, hk⟩ := growSpc_spec hssa (sectors * ss) 7 ha
  have hexit := growSpc_exit (sectors * ss) 7 1 (by omega : 32768 ≤ 1 * 2 ^ 7 * ss)
  rw [pow_zero] at hspc
  refine ⟨?_, ?_, hexit⟩
  · rw [sectorsPerCluster, hspc]
    exact Nat.two_pow_pos k
  · rw [sectorsPerCluster, hspc, hssa, ← pow_add]
    exact Nat.pow_le_pow_right (by norm_num) hk

theorem sub32_dataStart {f : ℕ} (hsectors : sectors < 2 ^ 32) (htop : f ≤ 2 ^ 25 + 1)
    (hpos : 0 < spc) (hsmall : spc ≤ 64) (hcount : sub32 sectors (32 + 2 * f) / spc ≤ 2 ^ 22) :
    32 + 2 * f ≤ sectors ∧ sub32 sectors (32 + 2 * f) = sectors - (32 + 2 * f) := by
  have hlow : sub32 sectors (32 + 2 * f) / 64 ≤ sub32 sectors (32 + 2 * f) / spc :=
    Nat.div_le_div_left hsmall hpos
  have hx : sub32 sectors (32 + 2 * f) < 2 ^ 29 := by omega
  unfold sub32 at hx ⊢
  omega

theorem layOut_good {f : ℕ} (hss : ss = 512 ∨ ss = 4096) (hsectors : sectors < 2 ^ 32)
    (hpos : 0 < spc) (hbytes : spc * ss ≤ 32768) (htop : f ≤ 2 ^ 25 + 1)
    (hcovers : covers ss (sub32 sectors reservedSectors) spc f = true)
    (h : layOut sectors spc f = some g) : g.Good ss sectors := by
  have hstart : (reservedSectors + numFats * f) % 2 ^ 32 = 32 + 2 * f := by
    unfold reservedSectors numFats
    omega
  rw [layOut, hstart] at h
  split at h
  · simp at h
  rename_i hcount
  cases h
  unfold minClusters maxClusters at hcount
  have hsmall : spc ≤ 64 := by
    rcases hss with rfl | rfl <;> omega
  obtain ⟨hroom, hrest⟩ := sub32_dataStart hsectors htop hpos hsmall (by omega)
  have hsame : sub32 (sub32 sectors reservedSectors) (numFats * f) = sectors - (32 + 2 * f) := by
    unfold sub32 reservedSectors numFats
    omega
  rw [covers, decide_eq_true_eq, hsame] at hcovers
  rw [hrest] at hcount ⊢
  have hfit := Nat.div_mul_le_self (sectors - (32 + 2 * f)) spc
  exact ⟨hss, rfl, hsectors, hpos, hbytes, rfl, by dsimp only; omega, hcovers,
    by dsimp only; omega, by dsimp only; omega, rfl⟩

/-- **Layout.** The sizes of a volume that is accepted fit one another. -/
theorem geometry_good (h : geometry ss sectors = some g) : g.Good ss sectors := by
  rw [geometry] at h
  split at h
  · simp at h
  split at h
  · simp at h
  have hss : ss = 512 ∨ ss = 4096 := by omega
  obtain ⟨hpos, hbytes, -⟩ := sectorsPerCluster_spec sectors hss
  obtain ⟨f, hf, htop, hcovers⟩ := fatSize_spec (sub32 sectors reservedSectors)
    (by omega : 128 ≤ ss / 4) hpos (Nat.mod_lt _ (by norm_num))
  rw [hf, Option.bind_some] at h
  exact layOut_good hss (by omega) hpos hbytes htop hcovers h

/-! ## Transfers -/

def Builder.wrote (fs : Builder ss) (sectors : Log ss) : Builder ss :=
  { fs with log := fs.log ++ sectors }

theorem wrote_wrote (fs : Builder ss) (a b : Log ss) : (fs.wrote a).wrote b = fs.wrote (a ++ b) := by
  simp only [Builder.wrote, List.append_assoc]

@[simp]
theorem wrote_nil (fs : Builder ss) : fs.wrote [] = fs := by
  simp only [Builder.wrote, List.append_nil]

theorem blockWrite_true {count : ℕ} {buf : List UInt8}
    (h : (blockWrite env fs lba count buf).1 = true) :
    blockWrite env fs lba count buf = (true, fs.wrote (transfer lba count buf)) := by
  rw [blockWrite] at h ⊢
  split at h
  · simp at h
  rename_i sectors hsectors
  split at h
  · rcases Nat.eq_zero_or_pos count with rfl | hcount
    · rw [← Option.some.inj hsectors]
      rfl
    · rw [(blockdevWrite_some hcount hsectors).2]
      rfl
  · simp at h

theorem of_unless_failed {ok : Bool} {stop rest : Bool × Builder ss} (hstop : stop.1 = false ∨ ok = stop.1)
    (h : (if ok = false then stop else rest).1 = true) :
    ok = true ∧ (if ok = false then stop else rest) = rest ∧ rest.1 = true := by
  cases ok with
  | false =>
    simp_all
  | true => exact ⟨rfl, rfl, h⟩

section

variable (hss : ss = 512 ∨ ss = 4096)

include hss

theorem chunk_pos : 0 < ioChunk / ss := by
  rcases hss with rfl | rfl <;> norm_num

theorem writeZero_true (hfuel : sectors ≤ fuel) (h : (writeZero env fuel fs lba sectors).1 = true) :
    writeZero env fuel fs lba sectors = (true, fs.wrote (transfer lba sectors [])) := by
  have hchunk := chunk_pos hss
  induction fuel generalizing fs lba sectors with
  | zero =>
    obtain rfl : sectors = 0 := by omega
    simp [writeZero, transfer]
  | succ fuel ih =>
    rw [writeZero] at h ⊢
    split at h
    · rename_i h0
      rw [h0]
      simp [transfer]
    rename_i h0
    rw [if_neg h0]
    obtain ⟨hok, heq, hrest⟩ := of_unless_failed (.inr rfl) h
    have hr := blockWrite_true hok
    refine heq.trans ?_
    rw [hr] at hrest ⊢
    rw [ih (by omega) hrest, wrote_wrote,
      transfer_split lba [] (Nat.min_le_left sectors (ioChunk / ss)), List.drop_nil]

theorem writeData_true {src : List UInt8} (hfuel : src.length ≤ fuel)
    (h : (writeData env fuel fs lba src).1 = true) : writeData env fuel fs lba src =
      (true, fs.wrote (transfer lba ((src.length + ss - 1) / ss) src)) := by
  have hround : ∀ n, n = 0 → (n + ss - 1) / ss = 0 := fun n hn => by
    exact Nat.div_eq_of_lt (by omega)
  induction fuel generalizing fs lba src with
  | zero =>
    rw [hround _ (by omega)]
    simp [writeData, transfer]
  | succ fuel ih =>
    rw [writeData] at h ⊢
    split at h
    · rename_i h0
      rw [if_pos h0, hround _ h0]
      simp [transfer]
    rename_i h0
    rw [if_neg h0]
    obtain ⟨hok, heq, hrest⟩ := of_unless_failed (.inl rfl) h
    have hr := blockWrite_true hok
    refine heq.trans ?_
    rw [hr] at hrest ⊢
    rw [ih (by rw [List.length_drop]; unfold ioChunk; omega) hrest, wrote_wrote, List.length_drop]
    have hle : (min src.length ioChunk + ss - 1) / ss ≤ (src.length + ss - 1) / ss :=
      Nat.div_le_div_right (by omega)
    rw [transfer_split lba src hle]
    rcases Nat.le_total src.length ioChunk with hshort | hlong
    · -- the last piece
      rw [Nat.min_eq_left hshort, Nat.sub_self, Nat.sub_self, hround _ rfl, List.take_length]
      rfl
    · have hwhole : (ioChunk + ss - 1) / ss * ss = ioChunk := by
        rcases hss with rfl | rfl <;> norm_num
      have hsub : (src.length - ioChunk + ss - 1) / ss =
          (src.length + ss - 1) / ss - (ioChunk + ss - 1) / ss := by
        rcases hss with rfl | rfl <;> omega
      rw [Nat.min_eq_right hlong, hsub, hwhole, transfer_take lba src hwhole.le]

/-- A copy of the FAT whose transfers all go well is on the disk in full. -/
theorem writeFat_true {base : ℕ} {s : ℕ} (hfuel : fs.fatSectors - s ≤ fuel)
    (h : (writeFat env base fuel fs s).1 = true) :
    writeFat env base fuel fs s = (true, fs.wrote
      (transfer (base + s) (fs.fatSectors - s) ((fatBytes fs).drop (s * ss)))) := by
  have hchunk := chunk_pos hss
  induction fuel generalizing fs s with
  | zero =>
    rw [Nat.le_zero.mp hfuel]
    simp [writeFat, transfer]
  | succ fuel ih =>
    rw [writeFat] at h ⊢
    split at h
    · rename_i hdone
      rw [if_pos hdone, Nat.sub_eq_zero_of_le hdone]
      simp [transfer]
    rename_i hmore
    rw [if_neg hmore]
    obtain ⟨hok, heq, hrest⟩ := of_unless_failed (.inr rfl) h
    have hr := blockWrite_true hok
    refine heq.trans ?_
    rw [hr] at hrest ⊢
    have htail := ih (by
      show fs.fatSectors - _ ≤ fuel
      omega) hrest
    rw [htail, wrote_wrote, transfer_take _ _ le_rfl,
      transfer_split (base + s) _ (Nat.min_le_left (fs.fatSectors - s) (ioChunk / ss))]
    show (true, fs.wrote (_ ++ transfer (base + (s + ioChunk / ss)) (fs.fatSectors - _) _)) = _
    rcases Nat.le_total (fs.fatSectors - s) (ioChunk / ss) with hshort | hlong
    · have hend : fs.fatSectors - (s + ioChunk / ss) = 0 := by omega
      rw [Nat.min_eq_left hshort, Nat.sub_self, hend]
      rfl
    · rw [Nat.min_eq_right hlong, Nat.sub_sub, List.drop_drop, ← add_mul, add_assoc]
      rfl

end

theorem writeDirs_true {ds : List Dir} (h : (writeDirs env ds fs).1 = true) :
    writeDirs env ds fs = (true, fs.wrote (ds.flatMap fun d =>
      transfer (clusterLba fs.toGeometry d.firstCluster) (d.clusters * fs.spc)
        (d.entries.flatMap direntLayout.enc))) := by
  induction ds generalizing fs with
  | nil => simp [writeDirs]
  | cons d ds ih =>
    obtain ⟨hok, heq, hrest⟩ := of_unless_failed (.inr rfl) h
    have hr := blockWrite_true hok
    refine heq.trans ?_
    rw [hr] at hrest ⊢
    rw [ih hrest, wrote_wrote]
    rfl

end MinimalOS.Fat32
