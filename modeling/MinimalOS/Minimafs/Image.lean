import MinimalOS.Minimafs.Machine

/-!
# What a written file leaves on the disk

The blocks of a file hold its header, its data and its footer, one behind the other, and zeros up
to the end of the last block. Writing them changes the blocks of the run and nothing else, and the
descriptor of the volume in block 0 is brought up to date.
-/

namespace MinimalOS.Minimafs

open CString Fs List

variable {d : Drive} {env : Env}

/-! ## The blocks of a file -/

/-- The bytes a segment leaves: a null pointer leaves what is there, which is zeros. -/
def Segment.content (s : Segment) : List UInt8 := s.bytes.getD (List.replicate s.len 0)

/-- The length is that of what the pointer points to. -/
def Segment.Ok (s : Segment) : Prop := ∀ bytes, s.bytes = some bytes → bytes.length = s.len

variable {s : Segment}

theorem Segment.Ok.length (hs : s.Ok) : s.content.length = s.len := by
  unfold Segment.content
  cases hb : s.bytes with
  | none => simp
  | some bytes => exact hs bytes hb

def fileText (header data : List UInt8) : List UInt8 := header ++ (data ++ footer)

theorem length_fileText (header data : List UInt8) :
    (fileText header data).length = header.length + data.length + 5 := by
  simp only [fileText, length_append]
  have : footer.length = 5 := rfl
  omega

theorem getD_append_zeros (l : List UInt8) (n i : ℕ) :
    ((l ++ List.replicate n 0)[i]?).getD 0 = (l[i]?).getD 0 := by
  by_cases hi : i < l.length
  · rw [List.getElem?_append_left hi]
  · rw [List.getElem?_append_right (not_lt.mp hi), List.getElem?_replicate,
      List.getElem?_eq_none (not_lt.mp hi)]
    split_ifs <;> rfl

theorem bytes_ofBytes {s : List UInt8} (h : s.length = blockSize) : (Block.ofBytes s).bytes = s := by
  show (s ++ List.replicate blockSize 0).take blockSize = s
  exact take_left' h

theorem copySegmentToBlock_window {l : List UInt8} {o start : ℕ} (hs : s.Ok)
    (hstart : start = l.length) (hend : l.length + s.len < 2 ^ 32) (ho : o + blockSize < 2 ^ 32) :
    copySegmentToBlock (Blocks.window 0 l blockSize o) o s start =
      Blocks.window 0 (l ++ s.content) blockSize o := by
  subst hstart
  unfold copySegmentToBlock
  cases hb : s.bytes with
  | none =>
    refine (map_congr_left fun j _ => ?_).symm
    rw [Segment.content, hb]
    exact getD_append_zeros l s.len (o + j)
  | some bytes =>
    have hlen := hs bytes hb
    have hcontent : s.content = bytes := by
      rw [Segment.content, hb]
      rfl
    have hwithin : ∀ i, o ≤ i → i < o + 4096 → (i < l.length ∨ l.length + s.len ≤ i) →
        ((l ++ bytes)[i]?).getD 0 = (l[i]?).getD 0 := by
      intro i _ _ hout
      by_cases hi : i < l.length
      · rw [List.getElem?_append_left hi]
      · rw [List.getElem?_append_right (not_lt.mp hi), List.getElem?_eq_none (by omega),
          List.getElem?_eq_none (not_lt.mp hi)]
    dsimp only
    rw [u32_eq_self ho, u32_eq_self hend, hcontent]
    split_ifs with hnone
    · refine map_congr_left fun j hj => ?_
      have hj : j < 4096 := mem_range.mp hj
      have hnone : s.len = 0 ∨ l.length + s.len ≤ o ∨ o + 4096 ≤ l.length := hnone
      exact (hwithin (o + j) (by omega) (by omega) (by omega)).symm
    · set a := max l.length o with ha
      set e := min (l.length + s.len) (o + blockSize) with he
      have he' : e = min (l.length + s.len) (o + 4096) := he
      have hpatch : ((bytes.drop (a - l.length)).take (e - a)).length = e - a := by
        rw [length_take, length_drop]
        omega
      have hfits : Patch.Fits (Blocks.window 0 l blockSize o)
          (a - o, (bytes.drop (a - l.length)).take (e - a)) := by
        rw [Patch.Fits, Blocks.length_window, hpatch]
        show a - o + (e - a) ≤ 4096
        omega
      refine ext_getElem? fun j => ?_
      by_cases hj : j < blockSize
      · have hj' : j < 4096 := hj
        rw [Patch.getElem?_write hfits, Blocks.getElem?_window _ _ _ hj,
          Blocks.getElem?_window _ _ _ hj, hpatch]
        split_ifs with hin
        · have hindex : a - l.length + (j - (a - o)) = o + j - l.length := by omega
          rw [List.getElem?_take_of_lt (by omega), List.getElem?_drop, hindex,
            List.getElem?_append_right (by omega), List.getElem?_eq_getElem (by omega)]
          rfl
        · rw [hwithin (o + j) (by omega) (by omega) (by omega)]
      · rw [List.getElem?_eq_none (by rw [Patch.length_write hfits, Blocks.length_window]; omega),
          List.getElem?_eq_none (by rw [Blocks.length_window]; omega)]

/-- **A block of a file** is the part of its text that falls into it. -/
theorem bytes_fileBlock {header : List UInt8} (hs : s.Ok) {i : ℕ}
    (hsize : header.length + s.len + 5 < 2 ^ 32) (hi : i * blockSize + blockSize < 2 ^ 32) :
    (fileBlock header s ⟨none, 0⟩ i).bytes =
      Blocks.window 0 (fileText header s.content) blockSize (i * blockSize) := by
  have hlen := hs.length
  have hoffset : u32 (i * blockSize) = i * blockSize := u32_eq_self (lt_of_le_of_lt (Nat.le_add_right _ _) hi)
  have hzero : List.replicate blockSize (0 : UInt8) =
      Blocks.window 0 [] blockSize (i * blockSize) := by
    simp only [Blocks.window, List.getElem?_nil, Option.getD_none, map_const', length_range]
  have hheader : copySegmentToBlock (Blocks.window 0 [] blockSize (i * blockSize)) (i * blockSize)
      ⟨some header, header.length⟩ 0 = Blocks.window 0 header blockSize (i * blockSize) :=
    copySegmentToBlock_window
      (fun b hb => by cases hb; rfl) rfl (show 0 + header.length < 2 ^ 32 by omega) hi
  have hdata := copySegmentToBlock_window hs (l := header) rfl (by omega) hi
  have hfooter : copySegmentToBlock (Blocks.window 0 (header ++ s.content) blockSize (i * blockSize))
      (i * blockSize) ⟨some footer, 5⟩ (header.length + s.len) =
        Blocks.window 0 ((header ++ s.content) ++ footer) blockSize (i * blockSize) :=
    copySegmentToBlock_window
      (fun b hb => by cases hb; rfl) (by rw [length_append, hlen])
      (show (header ++ s.content).length + 5 < 2 ^ 32 by rw [length_append]; omega) hi
  unfold fileBlock
  dsimp only
  rw [hoffset, u32_eq_self (show header.length < 2 ^ 32 by omega), Nat.add_zero,
    u32_eq_self (show s.len < 2 ^ 32 by omega),
    u32_eq_self (show header.length + s.len < 2 ^ 32 by omega), hzero, hheader, hdata]
  rw [show ∀ b o n, copySegmentToBlock b o ⟨none, 0⟩ n = b from fun _ _ _ => rfl, hfooter,
    fileText, ← append_assoc]
  exact bytes_ofBytes (Blocks.length_window _ _ _ _)

/-! ## Block writes -/

theorem Drive.store_nil (d : Drive) (start : ℕ) : d.store start [] = d := by
  have hdisk : (d.store start []).disk = d.disk := by
    funext b
    exact ite_self _
  exact congrArg (fun disk => { d with disk := disk }) hdisk

theorem Drive.store_take_drop (d : Drive) (start k : ℕ) (blocks : List Block) :
    (d.store start (blocks.take k)).store (start + min blocks.length k) (blocks.drop k) =
      d.store start blocks := by
  by_cases hk : blocks.length ≤ k
  · rw [take_of_length_le hk, drop_eq_nil_of_le hk, Drive.store_nil]
  · have hdisk : ((d.store start (blocks.take k)).store (start + min blocks.length k)
        (blocks.drop k)).disk = (d.store start blocks).disk := by
      funext b
      simp only [Drive.store]
      by_cases hlow : start ≤ b
      · rw [if_pos hlow, if_pos hlow]
        by_cases hhigh : start + min blocks.length k ≤ b
        · rw [if_pos hhigh, List.getElem?_drop, List.getElem?_take_eq_none (by omega),
            show k + (b - (start + min blocks.length k)) = b - start by omega]
          rfl
        · rw [if_neg hhigh, List.getElem?_take_of_lt (by omega)]
      · rw [if_neg hlow, if_neg hlow, if_neg (by omega)]
    exact congrArg (fun disk => { d with disk := disk }) hdisk

theorem writeLoop_nil (n cur : ℕ) (d : Drive) : writeLoop env n cur [] d = (.ok ⟨⟩, d) := by
  cases n with
  | zero => rfl
  | succ n =>
    rfl

/-- The disk with the blocks of a file from its block `i` on stored in a run. -/
def Drive.fill (d : Drive) (start i count : ℕ) (content : ℕ → Block) : Drive :=
  { d with
    disk := fun b => if start + i ≤ b ∧ b < start + count then content (b - start) else d.disk b }

theorem Drive.fill_of_le (d : Drive) (start : ℕ) {i count : ℕ} (content : ℕ → Block)
    (h : count ≤ i) : d.fill start i count content = d := by
  have hdisk : (d.fill start i count content).disk = d.disk := by
    funext b
    exact if_neg (by omega)
  exact congrArg (fun disk => { d with disk := disk }) hdisk

theorem Drive.store_fill (d : Drive) (start i chunk count : ℕ) (content : ℕ → Block)
    (h : i + chunk ≤ count) :
    (d.store (start + i) ((List.range chunk).map fun j => content (i + j))).fill start (i + chunk)
      count content = d.fill start i count content := by
  have hdisk : ((d.store (start + i) ((List.range chunk).map fun j => content (i + j))).fill start
      (i + chunk) count content).disk = (d.fill start i count content).disk := by
    funext b
    simp only [Drive.fill, Drive.store]
    by_cases hrest : start + (i + chunk) ≤ b ∧ b < start + count
    · rw [if_pos hrest, if_pos (by omega)]
    · rw [if_neg hrest]
      by_cases hlow : start + i ≤ b
      · rw [if_pos hlow, List.getElem?_map]
        by_cases hin : b < start + i + chunk
        · rw [if_pos (by omega), List.getElem?_range (by omega), Option.map_some, Option.getD_some,
            show i + (b - (start + i)) = b - start by omega]
        · rw [if_neg (by omega), List.getElem?_eq_none (by rw [length_range]; omega)]
          rfl
      · rw [if_neg hlow, if_neg (by omega)]
  exact congrArg (fun disk => { d with disk := disk }) hdisk

section Writes

variable (hwrite : ∀ t b, env.writeOk t b = true)

include hwrite

theorem writeLoop_run {n cur : ℕ} {blocks : List Block} (hn : blocks.length ≤ n)
    (hend : cur + blocks.length ≤ 2 ^ 32) (d : Drive) :
    ∃ t, writeLoop env n cur blocks d = (.ok ⟨⟩, (d.store cur blocks).later t) := by
  by_cases hnil : blocks = []
  · refine ⟨d.moment, ?_⟩
    rw [hnil, writeLoop_nil, Drive.store_nil]
    rfl
  have hpos := length_pos_iff.mpr hnil
  induction n generalizing cur blocks d with
  | zero => omega
  | succ n ih =>
    have hfirst : ∀ t, writeLoop env n (u32 (cur + min blocks.length 16)) (blocks.drop 16)
        ((d.later (d.moment + 1)).store cur (blocks.take 16)) =
          (.ok ⟨⟩, (d.store cur blocks).later t) →
        writeLoop env (n + 1) cur blocks d = (.ok ⟨⟩, (d.store cur blocks).later t) := by
      intro t ht
      rw [writeLoop, if_neg hnil, bind_ok moment_run,
        bind_ok (require_true (hwrite _ _))]
      exact (bind_ok rfl).trans ht
    by_cases hlast : blocks.length ≤ 16
    · refine ⟨d.moment + 1, hfirst _ ?_⟩
      rw [drop_eq_nil_of_le hlast, take_of_length_le hlast, writeLoop_nil]
      rfl
    · have hdrop : blocks.drop 16 ≠ [] := by
        rw [Ne, drop_eq_nil_iff]
        exact hlast
      have hend' : cur + min blocks.length 16 + (blocks.drop 16).length ≤ 2 ^ 32 := by
        rw [length_drop]
        omega
      obtain ⟨t, ht⟩ := ih (by rw [length_drop]; omega) hend'
        ((d.later (d.moment + 1)).store cur (blocks.take 16)) hdrop (length_pos_iff.mpr hdrop)
      refine ⟨t, hfirst t ?_⟩
      rw [u32_eq_self (by omega), ht, Drive.store_take_drop]
      rfl

theorem writeBlocks_run (start : ℕ) (blocks : List Block) (hend : start + blocks.length ≤ 2 ^ 32)
    (d : Drive) : ∃ t, writeBlocks env start blocks d = (.ok ⟨⟩, (d.store start blocks).later t) :=
  writeLoop_run hwrite le_rfl hend d

theorem writeChunks_run (content : ℕ → Block) {start count n i : ℕ} (hn : count - i ≤ n)
    (hend : start + count ≤ 2 ^ 32) (d : Drive) :
    ∃ t, writeChunks env content start count n i d =
      (.ok ⟨⟩, (d.fill start i count content).later t) := by
  induction n generalizing i d with
  | zero => exact ⟨d.moment, by rw [Drive.fill_of_le _ _ _ (by omega)]; rfl⟩
  | succ n ih =>
    by_cases hdone : count ≤ i
    · refine ⟨d.moment, ?_⟩
      rw [writeChunks, if_pos hdone, Drive.fill_of_le _ _ _ hdone]
      rfl
    · obtain ⟨t, ht⟩ := writeBlocks_run hwrite (start + i)
        ((List.range (min (count - i) 16)).map fun j => content (i + j))
        (by rw [length_map, length_range]; omega) d
      obtain ⟨u, hu⟩ := ih (i := i + min (count - i) 16) (by omega) ((d.store (start + i)
        ((List.range (min (count - i) 16)).map fun j => content (i + j))).later t)
      refine ⟨u, ?_⟩
      rw [writeChunks, if_neg hdone]
      rw [u32_eq_self (by omega), bind_ok ht, hu]
      rw [← d.store_fill start i (min (count - i) 16) count content (by omega)]
      rfl

end Writes

end MinimalOS.Minimafs
