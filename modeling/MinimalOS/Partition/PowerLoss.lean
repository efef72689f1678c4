import MinimalOS.Partition.Crc
import MinimalOS.Partition.Sectors

/-!
# Power loss during `gpt_store`

`gpt_load` never looks at the backup copy, so what counts is the primary one: the entry array and,
written after it, the header that holds the array's CRC. From that header on the new table is
loaded. Before it every sector write has to leave the bytes alone that the old header describes
(`gptStore_cut_iff`).
-/

namespace MinimalOS.Partition

open Packed List Option Function

variable {ss : ℕ}

/-! ## Loading -/

theorem length_headerBytes (h : GptHeader) : (headerLayout.enc h).length = 92 :=
  headerLayout.length_enc h

theorem length_entriesBytes (e : Entries) : (entriesLayout.enc e).length = gptEntryBytes :=
  entriesLayout.length_enc e

/-- The entries at the place that a header names, as `gpt_load` takes them. -/
def entriesAt (d : Disk ss) (h : GptHeader) : Entries :=
  entriesFrom h ((blockdevRead d h.entriesLba.toNat (entrySectors ss)).getD [])

variable {d d' : Disk ss} {g : Gpt} {k : ℕ} {l : List GptEntry}

theorem gptLoad_eq_some (h : gptLoad d = some g) :
    (∃ hdr, blockdevRead d 1 1 = some hdr ∧ headerLayout.dec hdr = g.header) ∧
      headerOk ss g.header = true ∧
      (blockdevRead d g.header.entriesLba.toNat (entrySectors ss)).isSome ∧
      g.entries = entriesAt d g.header ∧ entriesCrc g.header g.entries = g.header.entriesCrc32 := by
  simp only [gptLoad, bind_eq_bind, bind_eq_some_iff] at h
  obtain ⟨hdr, hhdr, h⟩ := h
  split at h
  · simp at h
  rename_i hok
  simp only [bind_eq_some_iff] at h
  obtain ⟨raw, hraw, h⟩ := h
  split at h
  · simp at h
  rename_i hcrc
  cases h
  refine ⟨⟨hdr, hhdr, rfl⟩, by simpa using hok, by rw [hraw]; rfl, ?_, by simpa using hcrc⟩
  rw [entriesAt, hraw]
  rfl

variable {h : GptHeader} {lba count : ℕ}

theorem gptLoad_of_reads {hdr : List UInt8} (hhdr : blockdevRead d 1 1 = some hdr)
    (hdec : headerLayout.dec hdr = h) (hok : headerOk ss h = true)
    (hraw : (blockdevRead d h.entriesLba.toNat (entrySectors ss)).isSome) : gptLoad d =
      if entriesCrc h (entriesAt d h) ≠ h.entriesCrc32 then none else some ⟨h, entriesAt d h⟩ := by
  obtain ⟨raw, hraw⟩ := isSome_iff_exists.mp hraw
  simp only [gptLoad, hhdr, hdec, bind_eq_bind, bind_some, hok, hraw, entriesAt]
  rfl

theorem blockdevRead_congr (hs : d'.sectors = d.sectors)
    (h : ∀ i < count, d'.data (lba + i) = d.data (lba + i)) :
    blockdevRead d' lba count = blockdevRead d lba count := by
  have hdata : ((List.range count).flatMap fun i => (d'.data (lba + i)).toList) =
      (List.range count).flatMap fun i => (d.data (lba + i)).toList :=
    flatMap_congr fun i hi => by rw [h i (mem_range.mp hi)]
  rw [blockdevRead, blockdevRead, hs, hdata]

theorem isSome_blockdevRead (hs : d'.sectors = d.sectors) (h : (blockdevRead d lba count).isSome) :
    (blockdevRead d' lba count).isSome := by
  rw [blockdevRead] at h ⊢
  split_ifs at h ⊢ <;> simp_all

theorem gptLoad_same_header {old : Gpt} (hold : gptLoad d = some old) (hs : d'.sectors = d.sectors)
    (hdata : d'.data 1 = d.data 1) : gptLoad d' =
      if entriesCrc old.header (entriesAt d' old.header) ≠ old.header.entriesCrc32 then none
      else some ⟨old.header, entriesAt d' old.header⟩ := by
  obtain ⟨⟨hdr, hhdr, hdec⟩, hok, hraw, -, -⟩ := gptLoad_eq_some hold
  have hhdr' : blockdevRead d' 1 1 = some hdr := by
    rw [← hhdr]
    refine blockdevRead_congr hs fun i hi => ?_
    obtain rfl : i = 0 := by omega
    exact hdata
  exact gptLoad_of_reads hhdr' hdec hok (isSome_blockdevRead hs hraw)

theorem gptLoad_written {buf : List UInt8} (hok : headerOk ss h = true) (hes : 0 < entrySectors ss)
    (hsectors : 2 ≤ d.sectors) (hheader : d.data 1 = sectorOf (headerLayout.enc h) 0)
    (hroom : h.entriesLba.toNat + entrySectors ss ≤ d.sectors)
    (hlen : buf.length ≤ entrySectors ss * ss)
    (harray : ∀ i < entrySectors ss, d.data (h.entriesLba.toNat + i) = sectorOf buf i)
    {entries : Entries}
    (hentries : entriesFrom h (buf ++ List.replicate (entrySectors ss * ss - buf.length) 0) = entries)
    (hcrc : entriesCrc h entries = h.entriesCrc32) : gptLoad d = some ⟨h, entries⟩ := by
  have hss := d.sectorSize_ge
  have hhdr := blockdevRead_buffer 1 1 (headerLayout.enc h) Nat.one_pos (by omega)
    (by rw [length_headerBytes]; omega)
    (fun i hi => by obtain rfl : i = 0 := by omega
                    exact hheader)
  have hraw := blockdevRead_buffer _ _ buf hes hroom hlen harray
  have hat : entriesAt d h = entries := by rw [entriesAt, hraw, getD_some, hentries]
  rw [gptLoad_of_reads hhdr (headerLayout.dec_enc _ _) hok (by rw [hraw]; rfl), hat,
    if_neg (not_not.mpr hcrc)]

/-! ## Storing -/

theorem entrySectors_pos (d : Disk ss) : 0 < entrySectors ss := by
  have := d.sectorSize_ge
  exact Nat.div_pos (by unfold gptEntryBytes gptEntries entryBytes; omega) (by omega)

theorem entryBytes_le (d : Disk ss) : gptEntryBytes ≤ entrySectors ss * ss := by
  have hpos : 0 < ss := by have := d.sectorSize_ge; omega
  have hmod := Nat.mod_lt (gptEntryBytes + ss - 1) hpos
  have hdiv := Nat.div_add_mod (gptEntryBytes + ss - 1) ss
  rw [entrySectors, mul_comm]
  omega

theorem lastLba_eq (h : 0 < d.sectors) : lastLba d = d.sectors - 1 := by
  have := d.sectors_lt
  unfold lastLba
  omega

theorem backupLba_eq (h : entrySectors ss < d.sectors) :
    backupLba d = d.sectors - 1 - entrySectors ss := by
  have := d.sectors_lt
  rw [backupLba, lastLba_eq (by omega)]
  omega

theorem lastLba_apply (d : Disk ss) (log : Log ss) : lastLba (d.apply log) = lastLba d := by
  rw [lastLba, lastLba, apply_sectors]

theorem backupLba_apply (d : Disk ss) (log : Log ss) : backupLba (d.apply log) = backupLba d := by
  rw [backupLba, backupLba, lastLba_apply]

theorem primaryHeader_apply (d : Disk ss) (log : Log ss) (g : Gpt) :
    primaryHeader (d.apply log) g = primaryHeader d g := by
  rw [primaryHeader, primaryHeader, lastLba_apply]

theorem backupHeader_apply (d : Disk ss) (log : Log ss) (g : Gpt) :
    backupHeader (d.apply log) g = backupHeader d g := by
  rw [backupHeader, backupHeader, lastLba_apply, backupLba_apply]

/-- The writes before the primary header: both entry arrays and the backup header. -/
def earlyWrites (d : Disk ss) (g : Gpt) : Log ss :=
  transfer (backupLba d) (entrySectors ss) (entriesLayout.enc g.entries) ++
    transfer (lastLba d) 1 (headerLayout.enc (backupHeader d g)) ++
    transfer 2 (entrySectors ss) (entriesLayout.enc g.entries)

theorem length_earlyWrites (d : Disk ss) (g : Gpt) :
    (earlyWrites d g).length = 2 * entrySectors ss + 1 := by
  simp [earlyWrites, transfer]
  omega

/-- The disk after a power loss behind the first `k` sector writes. -/
def cut (d : Disk ss) (g : Gpt) (k : ℕ) : Disk ss := d.apply ((gptStore d g).2.take k)

/-- The table as `gpt_store` leaves it in memory, which is what it has written to the primary
copy. -/
def stored (d : Disk ss) (g : Gpt) : Gpt := ⟨primaryHeader d g, g.entries⟩

theorem headerOk_primary (hsig : g.header.signature = efiPart) (hmin : 92 ≤ g.header.headerSize)
    (hmax : g.header.headerSize.toNat ≤ ss) : headerOk ss (primaryHeader d g) = true := by
  simp only [headerOk, decide_eq_true_eq]
  exact ⟨hsig, hmin, hmax, rfl, rfl, (by decide : (128 : UInt32) ≠ 0),
    (by decide : (128 : UInt32) ≤ 128)⟩

theorem gptLoad_stored (hsectors : d'.sectors = d.sectors)
    (hroom : entrySectors ss + 2 ≤ d.sectors) (hok : headerOk ss (primaryHeader d g) = true)
    (hheader : d'.data 1 = sectorOf (headerLayout.enc (primaryHeader d g)) 0)
    (harray : ∀ i < entrySectors ss,
      d'.data (2 + i) = sectorOf (entriesLayout.enc g.entries) i) :
    gptLoad d' = some (stored d g) := by
  have hes := entrySectors_pos d
  have hnum : (primaryHeader d g).numEntries.toNat * entryBytes = gptEntryBytes := rfl
  refine gptLoad_written hok hes (by omega) hheader
    (by rw [hsectors]; exact (by omega : 2 + entrySectors ss ≤ d.sectors))
    (by rw [length_entriesBytes]; exact entryBytes_le d) harray ?_ ?_
  · rw [entriesFrom, hnum, take_left' (length_entriesBytes _), entriesLayout.dec_enc]
  · rw [entriesCrc, hnum, take_of_length_le (by rw [length_entriesBytes])]
    rfl

section Room

variable (hroom : entrySectors ss + 3 ≤ d.sectors)

include hroom

theorem mem_earlyWrites {w : ℕ × Sector ss} (h : w ∈ earlyWrites d g) : 2 ≤ w.1 := by
  simp only [earlyWrites, mem_append] at h
  rcases h with (h | h) | h
  · have := mem_transfer h
    rw [backupLba_eq (by omega)] at this
    omega
  · have := mem_transfer h
    rw [lastLba_eq (by omega)] at this
    omega
  · exact (mem_transfer h).1

theorem gptStore_eq (g : Gpt) :
    ∃ mbr, gptStore d g = (true, earlyWrites d g ++
      transfer 1 1 (headerLayout.enc (primaryHeader d g)) ++ transfer 0 1 mbr) := by
  have hes := entrySectors_pos d
  have hbackup := backupLba_eq (d := d) (by omega)
  have hlast := lastLba_eq (d := d) (by omega)
  have hwrite : ∀ (log : Log ss) lba count buf, 0 < count → lba + count ≤ d.sectors →
      blockdevWrite (d.apply log) lba count buf = some (transfer lba count buf) :=
    fun log lba count buf hc h => blockdevWrite_eq _ buf hc (by rw [apply_sectors]; exact h)
  simp (disch := omega) only [gptStore, Disk.andWrite, writeProtectiveMbr, if_true,
    backupLba_apply, lastLba_apply, backupHeader_apply, primaryHeader_apply, hwrite, nil_append,
    earlyWrites]
  exact ⟨_, rfl⟩

theorem cut_early (hk : k < 2 * entrySectors ss + 2) :
    cut d g k = d.apply ((earlyWrites d g).take k) := by
  obtain ⟨mbr, heq⟩ := gptStore_eq hroom g
  have hlen := length_earlyWrites d g
  rw [cut, heq, append_assoc, take_append_of_le_length (by omega)]

theorem cut_late (hk : 2 * entrySectors ss + 2 ≤ k) :
    ∃ rest : Log ss, (∀ w ∈ rest, w.1 = 0) ∧ cut d g k = d.apply (earlyWrites d g ++
      transfer 1 1 (headerLayout.enc (primaryHeader d g)) ++ rest) := by
  obtain ⟨mbr, heq⟩ := gptStore_eq hroom g
  have hlen := length_earlyWrites d g
  have hlen' : (earlyWrites d g ++
      transfer 1 1 (headerLayout.enc (primaryHeader d g)) : Log ss).length =
        2 * entrySectors ss + 2 := by
    rw [length_append, hlen]
    rfl
  refine ⟨(transfer 0 1 mbr).take (k - (2 * entrySectors ss + 2)), fun w hw => ?_, ?_⟩
  · have := mem_transfer (mem_of_mem_take hw)
    omega
  · rw [cut, heq, take_append, hlen', take_of_length_le (by omega)]

theorem gptLoad_cut_late (hok : headerOk ss (primaryHeader d g) = true)
    (hk : 2 * entrySectors ss + 2 ≤ k) : gptLoad (cut d g k) = some (stored d g) := by
  obtain ⟨rest, hrest, hcut⟩ := cut_late hroom hk
  refine gptLoad_stored (apply_sectors _ _) (by omega) hok ?_ fun i hi => ?_
  · rw [hcut, apply_append, apply_data_of_notMem _ fun w hw => by rw [hrest w hw]; decide,
      apply_append]
    exact apply_transfer (i := 0) _ 1 _ (by decide)
  · rw [hcut, apply_append, apply_data_of_notMem _ fun w hw => by rw [hrest w hw]; omega,
      apply_append, apply_data_of_notMem _ fun w hw => by have := mem_transfer hw; omega,
      earlyWrites, apply_append]
    exact apply_transfer _ 2 _ hi

theorem gptLoad_cut_iff {old : Gpt} (hold : gptLoad d = some old)
    (hok : headerOk ss (primaryHeader d g) = true) :
    (∀ k, gptLoad (cut d g k) = some old ∨ gptLoad (cut d g k) = some (stored d g)) ↔
      ∀ k < 2 * entrySectors ss + 2, entriesAt (cut d g k) old.header = old.entries ∨
        (old.header = primaryHeader d g ∧ entriesAt (cut d g k) old.header = g.entries) := by
  have hcrc := (gptLoad_eq_some hold).2.2.2.2
  have hearly : ∀ k < 2 * entrySectors ss + 2, gptLoad (cut d g k) =
      if entriesCrc old.header (entriesAt (cut d g k) old.header) ≠ old.header.entriesCrc32 then none
      else some ⟨old.header, entriesAt (cut d g k) old.header⟩ := fun k hk => by
    refine gptLoad_same_header hold (apply_sectors _ _) ?_
    rw [cut_early hroom hk]
    exact apply_data_of_notMem _ fun w hw => by
      have := mem_earlyWrites hroom (mem_of_mem_take hw)
      omega
  constructor
  · intro h k hk
    have hload := h k
    rw [hearly k hk] at hload
    split at hload
    · simp at hload
    · simp only [Option.some.injEq, Gpt.ext_iff, true_and] at hload
      exact hload
  · intro h k
    by_cases hk : k < 2 * entrySectors ss + 2
    · rw [hearly k hk]
      rcases h k hk with hsame | ⟨hheader, hnew⟩
      · rw [hsame, if_neg (not_not.mpr hcrc)]
        exact Or.inl rfl
      · have hcrc' : entriesCrc old.header g.entries = old.header.entriesCrc32 := by
          rw [hheader, entriesCrc, take_of_length_le (by rw [length_entriesBytes]; rfl)]
          rfl
        rw [hnew, if_neg (not_not.mpr hcrc'), hheader, stored]
        simp only [or_true]
    · exact Or.inr (gptLoad_cut_late hroom hok (by omega))

end Room

/-! ## One write at a time

The array is followed through the cuts as a function of the sectors. One write changes one of its
values, so that a run of writes that only ever shows the old or the new array changes at most one
sector of it. -/

section Patches

variable {β : Type*} {a b : ℕ → β} {p : List (ℕ × β)} {s : ℕ}

def patch (a : ℕ → β) (p : List (ℕ × β)) : ℕ → β := p.foldl (fun a w => update a w.1 w.2) a

theorem patch_old_or_new {v : β} (hp : ∀ w ∈ p, w.2 = a w.1 ∨ w.1 = s ∧ w.2 = v) {c : ℕ → β}
    (hc : c = a ∨ c = update a s v) : patch c p = a ∨ patch c p = update a s v := by
  induction p generalizing c with
  | nil => exact hc
  | cons w p ih =>
    refine ih (fun w' hw' => hp w' (mem_cons_of_mem _ hw')) ?_
    show update c w.1 w.2 = a ∨ update c w.1 w.2 = update a s v
    rcases hp w mem_cons_self with hold | ⟨hw, hnew⟩
    · rw [hold]
      rcases hc with rfl | rfl
      · exact Or.inl (update_eq_self _ _)
      · by_cases hw : w.1 = s
        · exact Or.inl (by rw [hw, update_idem, update_eq_self])
        · exact Or.inr (by rw [update_comm (Ne.symm hw), update_eq_self])
    · rw [hw, hnew]
      rcases hc with rfl | rfl
      · exact Or.inr rfl
      · exact Or.inr (update_idem _ _ _)

theorem one_sector (h : ∀ k, patch a (p.take k) = a ∨ patch a (p.take k) = b) :
    (∀ w ∈ p, w.2 = a w.1) ∨ ∃ s, ∀ x ≠ s, b x = a x := by
  induction p with
  | nil => simp
  | cons w p ih =>
    by_cases hw : w.2 = a w.1
    · have hsame : update a w.1 w.2 = a := by rw [hw, update_eq_self]
      refine (ih fun k => ?_).imp_left (forall_mem_cons.mpr ⟨hw, ·⟩)
      have hk := h (k + 1)
      rwa [take_succ_cons, patch, foldl_cons, hsame] at hk
    · refine Or.inr ⟨w.1, fun x hx => ?_⟩
      have h1 : update a w.1 w.2 = a ∨ update a w.1 w.2 = b := h 1
      rcases h1 with h1 | h1
      · exact absurd (by rw [← update_self w.1 w.2 a, h1]) hw
      · rw [← h1]
        exact update_of_ne hx _ _

theorem patch_take_iff : (∀ k, patch a (p.take k) = a ∨ patch a (p.take k) = b) ↔
    (∀ w ∈ p, w.2 = a w.1) ∨
      ∃ s, (∀ x ≠ s, b x = a x) ∧ ∀ w ∈ p, w.2 = a w.1 ∨ w.1 = s ∧ w.2 = b w.1 := by
  constructor
  · intro h
    refine (one_sector h).imp_right ?_
    rintro ⟨s, hs⟩
    refine ⟨s, hs, fun w hw => ?_⟩
    obtain ⟨k, hk, rfl⟩ := mem_iff_getElem.mp hw
    -- the cut behind a write shows what it has written
    have hat : patch a (p.take (k + 1)) p[k].1 = p[k].2 := by
      rw [take_succ_eq_append_getElem hk, patch, foldl_append]
      exact update_self _ _ _
    rcases h (k + 1) with hcut | hcut
    · exact Or.inl (by rw [← hat, hcut])
    · by_cases hx : p[k].1 = s
      · exact Or.inr ⟨hx, by rw [← hat, hcut]⟩
      · exact Or.inl (by rw [← hat, hcut, hs _ hx])
  · rintro (h | ⟨s, hs, h⟩) k
    · have hold := patch_old_or_new (p := p.take k) (s := 0) (v := a 0)
        (fun w hw => Or.inl (h w (mem_of_mem_take hw))) (Or.inl rfl)
      rw [update_eq_self, or_self_iff] at hold
      exact Or.inl hold
    · have hb : b = update a s (b s) := eq_update_iff.mpr ⟨rfl, hs⟩
      rw [hb]
      refine patch_old_or_new (fun w hw => ?_) (Or.inl rfl)
      rcases h w (mem_of_mem_take hw) with hold | ⟨rfl, hnew⟩
      · exact Or.inl hold
      · exact Or.inr ⟨rfl, hnew⟩

end Patches

/-- Byte `j` of sector `x` is one of the entries that a header describes. -/
def Covers (ss : ℕ) (h : GptHeader) (x j : ℕ) : Prop :=
  h.entriesLba.toNat ≤ x ∧ (x - h.entriesLba.toNat) * ss + j < h.numEntries.toNat * entryBytes

instance (ss : ℕ) (h : GptHeader) (x j : ℕ) : Decidable (Covers ss h x j) :=
  inferInstanceAs (Decidable (_ ∧ _))

/-- Two contents of sector `x` agree on the entries of a header. -/
def SameEntries (h : GptHeader) (x : ℕ) (s s' : Sector ss) : Prop :=
  ∀ j : Fin ss, Covers ss h x j → s[j] = s'[j]

def covered (h : GptHeader) (x : ℕ) (s : Sector ss) : Fin ss → Option UInt8 :=
  fun j => if Covers ss h x j then some s[j] else none

theorem covered_inj {x : ℕ} {s s' : Sector ss} :
    covered h x s = covered h x s' ↔ SameEntries h x s s' := by
  rw [funext_iff]
  refine forall_congr' fun j => ?_
  unfold covered
  split <;> simp [*]

def arrayOf (h : GptHeader) (d : Disk ss) (x : ℕ) : Fin ss → Option UInt8 := covered h x (d.data x)

theorem arrayOf_apply (h : GptHeader) (d : Disk ss) (log : Log ss) :
    arrayOf h (d.apply log) = patch (arrayOf h d) (log.map fun w => (w.1, covered h w.1 w.2)) := by
  induction log generalizing d with
  | nil => rfl
  | cons w log ih =>
    have hput : arrayOf h (d.put w) = update (arrayOf h d) w.1 (covered h w.1 w.2) := by
      ext1 x
      show covered h x (update d.data w.1 w.2 x) = _
      by_cases hx : x = w.1
      · rw [hx, update_self, update_self]
      · rw [update_of_ne hx, update_of_ne hx, arrayOf]
    rw [map_cons, patch, foldl_cons, ← hput]
    exact ih (d.put w)

theorem getElem?_sectors (f : ℕ → Sector ss) {n i j : ℕ} (hi : i < n) (hj : j < ss) :
    ((List.range n).flatMap fun i => (f i).toList)[i * ss + j]? = some (f i)[j] := by
  have hlen : ∀ n, ((List.range n).flatMap fun i => (f i).toList).length = n * ss := fun n => by
    simp [length_flatMap]
  induction n with
  | zero => omega
  | succ n ih =>
    rw [range_succ, flatMap_append, flatMap_singleton]
    rcases Nat.lt_succ_iff_lt_or_eq.mp hi with hlt | rfl
    · have := Nat.mul_le_mul_right ss (hlt : i + 1 ≤ n)
      rw [Nat.succ_mul] at this
      rw [getElem?_append_left (by rw [hlen]; omega), ih hlt]
    · rw [getElem?_append_right (by rw [hlen]; omega), hlen, Nat.add_sub_cancel_left]
      simp [hj]

theorem take_sectors_iff (f f' : ℕ → Sector ss) {n m : ℕ} (hm : m ≤ n * ss) :
    ((List.range n).flatMap fun i => (f i).toList).take m =
        ((List.range n).flatMap fun i => (f' i).toList).take m ↔
      ∀ i, ∀ j : Fin ss, i * ss + j < m → (f i)[j] = (f' i)[j] := by
  constructor
  · intro h i j hij
    have hi : i < n := Nat.lt_of_mul_lt_mul_right (by omega : i * ss < n * ss)
    have hat := congrArg (·[i * ss + j]?) h
    simp only [getElem?_take_of_lt hij, getElem?_sectors _ hi j.isLt] at hat
    exact Option.some.inj hat
  · intro h
    refine ext_getElem? fun k => ?_
    by_cases hk : k < m
    · have hpos : 0 < ss := Nat.pos_of_ne_zero fun h0 => by rw [h0] at hm; omega
      have hkn : k / ss < n := Nat.div_lt_of_lt_mul (by rw [mul_comm]; omega)
      have hsplit : k / ss * ss + k % ss = k := Nat.div_add_mod' k ss
      rw [getElem?_take_of_lt hk, getElem?_take_of_lt hk, ← hsplit,
        getElem?_sectors f hkn (Nat.mod_lt _ hpos), getElem?_sectors f' hkn (Nat.mod_lt _ hpos)]
      exact congrArg some (h _ ⟨k % ss, Nat.mod_lt _ hpos⟩ (by rw [hsplit]; exact hk))
    · rw [getElem?_eq_none, getElem?_eq_none] <;> rw [length_take] <;> omega

theorem entriesAt_eq_iff (hs : d'.sectors = d.sectors) (hnum : h.numEntries ≤ 128)
    (hraw : (blockdevRead d h.entriesLba.toNat (entrySectors ss)).isSome) :
    entriesAt d' h = entriesAt d h ↔ arrayOf h d' = arrayOf h d := by
  have hes := entrySectors_pos d
  have hbytes := entryBytes_le d
  have hn : h.numEntries.toNat * entryBytes ≤ gptEntryBytes :=
    Nat.mul_le_mul_right _ (UInt32.le_iff_toNat_le.mp hnum)
  have hread : ∀ e : Disk ss, e.sectors = d.sectors →
      (blockdevRead e h.entriesLba.toNat (entrySectors ss)).getD [] =
        (List.range (entrySectors ss)).flatMap fun i =>
          (e.data (h.entriesLba.toNat + i)).toList := fun e he => by
    rw [blockdevRead, if_neg (by omega)] at hraw ⊢
    rw [he]
    split_ifs at hraw ⊢ <;> simp_all
  have hsize : ∀ raw : List UInt8, raw.length = entrySectors ss * ss →
      (raw.take (h.numEntries.toNat * entryBytes) ++
        List.replicate (gptEntryBytes - h.numEntries.toNat * entryBytes) 0).length =
          entriesLayout.size := fun raw hlen => by
    rw [length_append, length_take, length_replicate, hlen, min_eq_left (by omega)]
    exact Nat.add_sub_cancel' hn
  rw [entriesAt, entriesAt, entriesFrom, entriesFrom, hread d' hs, hread d rfl,
    dec_inj _ (hsize _ (by simp [length_flatMap])) (hsize _ (by simp [length_flatMap])),
    append_left_inj, take_sectors_iff _ _ (by omega), funext_iff]
  constructor
  · intro hall x
    refine covered_inj.mpr fun j hj => ?_
    have hx := hall (x - h.entriesLba.toNat) j hj.2
    rwa [Nat.add_sub_cancel' hj.1] at hx
  · intro hall i j hij
    refine covered_inj.mp (hall (h.entriesLba.toNat + i)) j ⟨Nat.le_add_right _ _, ?_⟩
    rwa [Nat.add_sub_cancel_left]

/-- The disk with the new entry array in the place of the primary one. -/
def withArray (d : Disk ss) (g : Gpt) : Disk ss :=
  d.apply (transfer 2 (entrySectors ss) (entriesLayout.enc g.entries))

theorem entriesAt_withArray (hroom : entrySectors ss + 3 ≤ d.sectors) :
    entriesAt (withArray d g) (primaryHeader d g) = g.entries := by
  have hnum : (primaryHeader d g).numEntries.toNat * entryBytes = gptEntryBytes := rfl
  have hlba : (primaryHeader d g).entriesLba.toNat = 2 := rfl
  have hsectors : (withArray d g).sectors = d.sectors := apply_sectors _ _
  rw [entriesAt, hlba, blockdevRead_buffer (d := withArray d g) 2 _ (entriesLayout.enc g.entries)
    (entrySectors_pos d) (by omega) (by rw [length_entriesBytes]; exact entryBytes_le d)
    fun i hi => apply_transfer d 2 _ hi, getD_some, entriesFrom, hnum,
    take_left' (length_entriesBytes _), entriesLayout.dec_enc]

theorem arrayOf_cut_iff (hroom : entrySectors ss + 3 ≤ d.sectors) (new : Disk ss) :
    (∀ k < 2 * entrySectors ss + 2,
        arrayOf h (cut d g k) = arrayOf h d ∨ arrayOf h (cut d g k) = arrayOf h new) ↔
      (∀ w ∈ earlyWrites d g, SameEntries h w.1 w.2 (d.data w.1)) ∨
        ∃ s, (∀ x ≠ s, SameEntries h x (new.data x) (d.data x)) ∧
          ∀ w ∈ earlyWrites d g, SameEntries h w.1 w.2 (d.data w.1) ∨
            w.1 = s ∧ SameEntries h w.1 w.2 (new.data w.1) := by
  have hpatch := patch_take_iff (a := arrayOf h d) (b := arrayOf h new)
    (p := (earlyWrites d g).map fun w => (w.1, covered h w.1 w.2))
  simp only [List.forall_mem_map, arrayOf, covered_inj, ← map_take] at hpatch
  rw [← hpatch]
  have hcut : ∀ k < 2 * entrySectors ss + 2, arrayOf h (cut d g k) =
      patch (arrayOf h d) (((earlyWrites d g).take k).map fun w => (w.1, covered h w.1 w.2)) :=
    fun k hk => by rw [cut_early hroom hk, arrayOf_apply]
  constructor
  · intro hall k
    -- a cut behind the last early write is the one right behind it
    have hk := hall (min k (2 * entrySectors ss + 1)) (by omega)
    rwa [hcut _ (by omega), ← length_earlyWrites d g, ← take_eq_take_min] at hk
  · intro hall k hk
    rw [hcut k hk]
    exact hall k

/-- **Power loss.** Every prefix of the writes leaves the old or the new table exactly when each
sector written before the primary header holds the old entries wherever the old header has its
entries. If the two headers are the same, one sector of the array may change. -/
theorem gptStore_cut_iff (d : Disk ss) (old g : Gpt) (hold : gptLoad d = some old)
    (hroom : entrySectors ss + 3 ≤ d.sectors) (hsig : g.header.signature = efiPart)
    (hmin : 92 ≤ g.header.headerSize) (hmax : g.header.headerSize.toNat ≤ ss) :
    (∀ k, gptLoad (cut d g k) = some old ∨ gptLoad (cut d g k) = some (stored d g)) ↔
      (∀ w ∈ earlyWrites d g, SameEntries old.header w.1 w.2 (d.data w.1)) ∨
        old.header = primaryHeader d g ∧ ∃ s,
          (∀ x ≠ s, SameEntries old.header x ((withArray d g).data x) (d.data x)) ∧
            ∀ w ∈ earlyWrites d g, SameEntries old.header w.1 w.2 (d.data w.1) ∨
              w.1 = s ∧ SameEntries old.header w.1 w.2 ((withArray d g).data w.1) := by
  rw [gptLoad_cut_iff hroom hold (headerOk_primary hsig hmin hmax)]
  obtain ⟨-, hok, hraw, hentries, -⟩ := gptLoad_eq_some hold
  have hnum : old.header.numEntries ≤ 128 := by
    simp only [headerOk, decide_eq_true_eq] at hok
    exact hok.2.2.2.2.2.2
  have hsame : ∀ k, entriesAt (cut d g k) old.header = old.entries ↔
      arrayOf old.header (cut d g k) = arrayOf old.header d := fun k => by
    rw [hentries]
    exact entriesAt_eq_iff (apply_sectors _ _) hnum hraw
  by_cases hheader : old.header = primaryHeader d g
  · have hnew : ∀ k, entriesAt (cut d g k) old.header = g.entries ↔
        arrayOf old.header (cut d g k) = arrayOf old.header (withArray d g) := fun k => by
      have hat : entriesAt (withArray d g) old.header = g.entries := by
        rw [hheader, entriesAt_withArray hroom]
      rw [← hat]
      exact entriesAt_eq_iff (by rw [cut, withArray, apply_sectors, apply_sectors]) hnum
        (isSome_blockdevRead (apply_sectors _ _) hraw)
    simp only [hsame, hnew, eq_true hheader, true_and]
    exact arrayOf_cut_iff hroom _
  · simp only [hsame, eq_false hheader, false_and, or_false]
    have hold := arrayOf_cut_iff (g := g) hroom (h := old.header) d
    simp only [or_self_iff] at hold
    rw [hold]
    constructor
    · rintro (h | ⟨s, -, h⟩) w hw
      · exact h w hw
      · exact (h w hw).elim id And.right
    · exact Or.inl

/-! ## A small disk

A hundred sectors with a table of a few partitions. -/

def sampleHeader (l : List GptEntry) : GptHeader :=
  sealHeader ⟨efiPart, 0x10000, 92, 0, 0, 1, 99, 3, 98, Vector.replicate 16 3, 2,
    UInt32.ofNat l.length, 128, partitionCrc32 (l.flatMap entryLayout.enc)⟩

def padEntries (l : List GptEntry) (h : l.length ≤ gptEntries) : Entries :=
  ⟨(l ++ List.replicate (gptEntries - l.length) emptyEntry).toArray, by simp; omega⟩

def sampleDisk (l : List GptEntry) (h : l.length ≤ gptEntries) : Disk 512 where
  sectors := 100
  data := fun lba =>
    if lba = 0 then
      sectorOf (List.replicate 450 0 ++ [0xEE] ++ List.replicate 59 0 ++ [0x55, 0xAA]) 0
    else if lba = 1 then sectorOf (headerLayout.enc (sampleHeader l)) 0
    else sectorOf (entriesLayout.enc (padEntries l h)) (lba - 2)
  sectors_lt := by decide
  sectorSize_ge := by decide

theorem enc_padEntries (l : List GptEntry) (h : l.length ≤ gptEntries) :
    entriesLayout.enc (padEntries l h) =
      l.flatMap entryLayout.enc ++ List.replicate (gptEntryBytes - l.length * entryBytes) 0 := by
  have hempty : entryLayout.enc emptyEntry = List.replicate 128 0 := by decide +kernel
  have hzeros : ∀ n, (List.replicate n emptyEntry).flatMap entryLayout.enc =
      List.replicate (n * entryBytes) 0 := fun n => by
    induction n with
    | zero => rfl
    | succ n ih =>
      rw [replicate_succ, flatMap_cons, ih, hempty, replicate_append_replicate]
      congr 1
      unfold entryBytes
      omega
  have hsub : gptEntryBytes - l.length * entryBytes = (gptEntries - l.length) * entryBytes := by
    rw [Nat.sub_mul]
  rw [hsub, ← hzeros, ← flatMap_append]
  rfl

theorem length_entries (l : List GptEntry) :
    (l.flatMap entryLayout.enc).length = l.length * entryBytes :=
  length_flatMap_enc entryLayout l

theorem sampleHeader_num (h : l.length ≤ gptEntries) :
    (sampleHeader l).numEntries.toNat = l.length := by
  show (UInt32.ofNat l.length).toNat = l.length
  exact Nat.mod_eq_of_lt (by unfold gptEntries at h; omega)

theorem entriesFrom_sample (l l' : List GptEntry) (h : l.length ≤ gptEntries)
    (h' : l'.length ≤ gptEntries) (hlen : l'.length = l.length) (rest : List UInt8) :
    entriesFrom (sampleHeader l) (entriesLayout.enc (padEntries l' h') ++ rest) =
      padEntries l' h' := by
  have henc := enc_padEntries l' h'
  rw [entriesFrom, sampleHeader_num h, ← hlen, henc, append_assoc,
    take_left' (length_entries l'), ← henc, ← append_nil (entriesLayout.enc _),
    entriesLayout.dec_enc]

theorem entriesCrc_sample (l l' : List GptEntry) (h : l.length ≤ gptEntries)
    (h' : l'.length ≤ gptEntries) (hlen : l'.length = l.length) :
    entriesCrc (sampleHeader l) (padEntries l' h') =
      partitionCrc32 (l'.flatMap entryLayout.enc) := by
  rw [entriesCrc, sampleHeader_num h, ← hlen, enc_padEntries, take_left' (length_entries l')]

theorem headerOk_sample (h : l.length ≤ gptEntries) (hpos : 0 < l.length) :
    headerOk 512 (sampleHeader l) = true := by
  have hseal : ∀ h : GptHeader, headerCrc (sealHeader h) = (sealHeader h).headerCrc32 :=
    fun _ => rfl
  have hnum := sampleHeader_num h
  simp only [headerOk, decide_eq_true_eq]
  refine ⟨rfl, (by decide : (92 : UInt32) ≤ 92), (by decide : (92 : UInt32).toNat ≤ 512),
    hseal _, rfl, fun hzero => ?_, ?_⟩
  · rw [hzero] at hnum
    exact absurd hnum (by rw [show (0 : UInt32).toNat = 0 from rfl]; omega)
  · rw [UInt32.le_iff_toNat_le, hnum]
    exact h

theorem sampleDisk_array (h : l.length ≤ gptEntries) {lba : ℕ} (hlba : 2 ≤ lba) :
    (sampleDisk l h).data lba = sectorOf (entriesLayout.enc (padEntries l h)) (lba - 2) :=
  (if_neg (by omega : lba ≠ 0)).trans (if_neg (by omega : lba ≠ 1))

theorem sampleDisk_load (h : l.length ≤ gptEntries) (hpos : 0 < l.length) :
    gptLoad (sampleDisk l h) = some ⟨sampleHeader l, padEntries l h⟩ := by
  have hes : entrySectors 512 = 32 := rfl
  have hheader : ∀ lba, lba = 1 →
      (sampleDisk l h).data lba = sectorOf (headerLayout.enc (sampleHeader l)) 0 := fun lba hlba =>
    (if_neg (by omega : lba ≠ 0)).trans (if_pos hlba)
  refine gptLoad_written (headerOk_sample h hpos) (by rw [hes]; decide) (by decide : 2 ≤ 100)
    (hheader 1 rfl) (by rw [hes]; exact (by decide : 2 + 32 ≤ 100))
    (by rw [length_entriesBytes]; exact entryBytes_le (sampleDisk l h)) (fun i hi => ?_)
    (entriesFrom_sample l l h h rfl _) (entriesCrc_sample l l h h rfl)
  have hlba : (sampleHeader l).entriesLba.toNat + i = i + 2 := Nat.add_comm 2 i
  rw [hlba, sampleDisk_array h (by omega), Nat.add_sub_cancel]

/-- A partition from sector 40 to 60, with the last character of its name. -/
def sampleEntry (name : UInt16) : GptEntry :=
  ⟨Vector.replicate 16 1, Vector.replicate 16 2, 40, 60, 0, (Vector.replicate 35 0).push name⟩

def namedDisk : Disk 512 := sampleDisk [sampleEntry 0] (by decide)

def namedTable (name : UInt16) : Gpt :=
  ⟨sampleHeader [sampleEntry 0], padEntries [sampleEntry name] (by simp [gptEntries])⟩

theorem namedDisk_load : gptLoad namedDisk = some (namedTable 0) :=
  sampleDisk_load (by decide) (by decide)

theorem gptStore_cut_iff_sample : gptLoad namedDisk = some (namedTable 0) ∧ ∀ k,
    gptLoad (cut namedDisk (namedTable 0) k) = some (namedTable 0) ∨
      gptLoad (cut namedDisk (namedTable 0) k) = some (stored namedDisk (namedTable 0)) := by
  refine ⟨namedDisk_load, (gptStore_cut_iff namedDisk (namedTable 0) (namedTable 0) namedDisk_load
    (by decide : 32 + 3 ≤ 100) rfl (by decide : (92 : UInt32) ≤ 92)
    (by decide : (92 : UInt32).toNat ≤ 512)).mpr (Or.inl fun w hw j hj => ?_)⟩
  have hj : 2 ≤ w.1 ∧ (w.1 - 2) * 512 + j < 1 * 128 := hj
  simp only [earlyWrites, mem_append] at hw
  rcases hw with (hw | hw) | hw
  · have : 67 ≤ w.1 := (mem_transfer hw).1
    omega
  · have : 99 ≤ w.1 := (mem_transfer hw).1
    omega
  · obtain ⟨i, -, rfl⟩ := mem_map.mp hw
    rw [namedDisk, sampleDisk_array _ (Nat.le_add_right 2 i), Nat.add_sub_cancel_left]
    rfl

/-- A partition gets another name. Both arrays and the backup header are written, and the power
is lost before the primary header. -/
theorem gptLoad_cut_fails :
    gptLoad namedDisk = some (namedTable 0) ∧
      gptLoad (cut namedDisk (namedTable 256) 65) = none := by
  refine ⟨namedDisk_load, ?_⟩
  have hes : entrySectors 512 = 32 := rfl
  have hroom : entrySectors 512 + 3 ≤ namedDisk.sectors := (by decide : 32 + 3 ≤ 100)
  have hcut : cut namedDisk (namedTable 256) 65 =
      namedDisk.apply (earlyWrites namedDisk (namedTable 256)) := by
    rw [cut_early hroom (by rw [hes]; decide), take_of_length_le]
    rw [length_earlyWrites, hes]
  have hsectors : (cut namedDisk (namedTable 256) 65).sectors = 100 := apply_sectors _ _
  have hraw := blockdevRead_buffer 2 (entrySectors 512)
    (entriesLayout.enc (namedTable 256).entries) (by rw [hes]; decide)
    (by rw [hsectors]; decide) (by rw [length_entriesBytes]; exact entryBytes_le namedDisk)
    (fun i hi => by
      rw [hcut, earlyWrites]
      exact apply_transfer _ 2 _ hi)
  have hheader : (namedTable 0).header = sampleHeader [sampleEntry 0] := rfl
  have hentries : (namedTable 256).entries = padEntries [sampleEntry 256] (by decide) := rfl
  have hlba : (sampleHeader [sampleEntry 0]).entriesLba.toNat = 2 := rfl
  have hat : entriesAt (cut namedDisk (namedTable 256) 65) (namedTable 0).header =
      (namedTable 256).entries := by
    rw [hheader, entriesAt, hlba, hraw, getD_some, hentries,
      entriesFrom_sample [sampleEntry 0] [sampleEntry 256] (by decide) _ rfl]
  have hcrc : entriesCrc (namedTable 0).header (namedTable 256).entries ≠
      (namedTable 0).header.entriesCrc32 := by
    rw [hheader, hentries, entriesCrc_sample [sampleEntry 0] [sampleEntry 256] (by decide) _ rfl]
    exact partitionCrc32_ne_of_burst (s := messageBits (entryLayout.enc (sampleEntry 0)).dropLast)
      (u := messageBits [1]) (w := messageBits [0]) (t := []) (by decide +kernel)
      (by decide +kernel) rfl (by decide) (by decide)
  rw [gptLoad_same_header namedDisk_load hsectors, hat, if_pos hcrc]
  exact apply_data_of_notMem _ fun w hw => by
    have := mem_earlyWrites hroom hw
    omega

/-! ## Damaged entries -/

/-- The bytes of the entries that the header's checksum covers. -/
def checkedBytes (g : Gpt) : List UInt8 :=
  (entriesLayout.enc g.entries).take (g.header.numEntries.toNat * entryBytes)

variable {s u w t : List Bool} {e : Entries}

/-- **Damaged entries.** No disk loads as a table that differs from a loaded one only within 32
consecutive bits of its entries. -/
theorem gptLoad_ne_of_burst {ss ss' : ℕ} {d : Disk ss} (hload : gptLoad d = some g)
    (hold : messageBits (checkedBytes g) = s ++ u ++ t)
    (hnew : messageBits (checkedBytes ⟨g.header, e⟩) = s ++ w ++ t) (hlen : u.length = w.length)
    (hle : u.length ≤ 32) (hne : u ≠ w) (d' : Disk ss') : gptLoad d' ≠ some ⟨g.header, e⟩ := by
  intro h
  obtain ⟨-, -, -, -, hcrc⟩ := gptLoad_eq_some hload
  obtain ⟨-, -, -, -, hcrc'⟩ := gptLoad_eq_some h
  exact partitionCrc32_ne_of_burst hold hnew hlen hle hne (hcrc.trans hcrc'.symm)

theorem gptLoad_ne_renamed : gptLoad namedDisk = some (namedTable 0) ∧
    ∀ d : Disk 512, gptLoad d ≠ some (namedTable 256) :=
  ⟨namedDisk_load, gptLoad_ne_of_burst namedDisk_load
    (s := messageBits (entryLayout.enc (sampleEntry 0)).dropLast) (u := messageBits [0])
    (w := messageBits [1]) (t := []) (by decide +kernel) (by decide +kernel) rfl (by decide)
    (by decide)⟩

end MinimalOS.Partition
