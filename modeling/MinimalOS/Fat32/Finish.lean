import MinimalOS.Fat32.Laid

/-!
# Creating and finishing a volume

`fat32_create` starts with an empty root (`create_laid`). `fat32_finish` writes the directories into
their clusters and then, before the data area, both copies of the FAT; `Finished` is what the
device holds afterwards.
-/

namespace MinimalOS.Fat32

open Packed MinimalOS.Partition

variable {ss : ℕ}

/-! ## Creating -/

theorem andThen_true {r : Bool × Builder ss} {next : Builder ss → Bool × Builder ss}
    (h : (andThen r next).1 = true) :
    r.1 = true ∧ andThen r next = next r.2 ∧ (next r.2).1 = true :=
  of_unless_failed (.inr rfl) h

variable {env : Env ss} {fs : Builder ss}

theorem writeBoot_true (hss : ss = 512 ∨ ss = 4096) {bs : List UInt8}
    (h : (writeBoot env fs bs).1 = true) :
    writeBoot env fs bs = (true, fs.wrote
      (transfer 0 reservedSectors [] ++ transfer 0 1 bs ++ transfer 6 1 bs)) := by
  rw [writeBoot] at ⊢
  obtain ⟨h2, heq2, h3⟩ := andThen_true h
  obtain ⟨h1, heq1, h2⟩ := andThen_true h2
  rw [heq2]
  rw [heq1] at h3 ⊢
  rw [writeZero_true hss le_rfl h1] at h2 h3 ⊢
  rw [blockWrite_true h2] at h3 ⊢
  rw [blockWrite_true h3, wrote_wrote, wrote_wrote, List.append_assoc]

theorem addEntry_label {clusterBytes : ℕ} (e : Dirent)
    (hdirs : fs.dirs = [dirWith clusterBytes 2 []]) (hcap : 0 < capacity clusterBytes) :
    addEntry fs 2 e = (true, { fs with dirs := [dirWith clusterBytes 2 [e]] }) := by
  have hfull : ¬ capacity clusterBytes ≤ 0 := by omega
  rw [addEntry, hdirs]
  simp [dirWith, hfull, Dir.push]

/-- **Creating.** A new volume has an empty root and its boot sector. -/
theorem create_laid {dev : Disk ss} {label : Option (List UInt8)} {volumeId hidden : ℕ}
    (h : fat32Create env dev label volumeId hidden = .ok fs) :
    fs.dev = dev ∧ Laid (make83 (label.getD (CString.ascii "NO NAME")))
      (bootSector ss fs.toGeometry hidden volumeId
        (make83 (label.getD (CString.ascii "NO NAME")))) fs [] := by
  rw [fat32Create] at h
  split at h
  · simp at h
  rename_i g hg
  have hgood := geometry_good hg
  dsimp only at h
  generalize make83 (label.getD (CString.ascii "NO NAME")) = lab at h
  generalize hbs : bootSector ss g hidden volumeId lab = bs at h
  split_ifs at h with h1 h2 h3 h4
  rw [writeBoot_true hgood.sectorSize (Bool.of_not_eq_false h3)] at h h4
  generalize hw : (transfer 0 reservedSectors [] ++ transfer 0 1 bs ++ transfer 6 1 bs : Log ss) = w
    at h h4
  have hroot : (newDir env ((blankBuilder dev g).wrote w) noParent).1 ≠ 0 := by
    rw [not_not.mp h4]
    norm_num
  obtain ⟨hclusters, hnew⟩ := newDir_ok (by exact hgood.few)
    (by show 2 ≤ g.clusterCount + 2; omega) hroot
  have hcap := two_le_capacity hgood.clusterBytes_ge
  rw [hnew, addEntry_label _ (by rfl) (by exact (by omega : 0 < capacity (g.clusterBytes ss)))] at h
  cases h
  refine ⟨rfl, ?_⟩
  show Laid lab (bootSector ss g hidden volumeId lab) _ []
  rw [hbs]
  exact {
    good := hgood
    ok := rfl
    next_ge := le_rfl
    next_le := hclusters
    rootLinked := linked_link _ _ _
    linked := by simp
    inside := by simp
    ordered := .nil
    sized := by simp
    dirs := rfl
    room := fun d hd => by
      obtain rfl := List.mem_singleton.mp hd
      exact (by omega : 1 ≤ capacity (g.clusterBytes ss))
    parents := fun before n behind heq => by simp at heq
    names := by simp
    stored := by simp
    boot := by
      show (dev.apply ([] ++ w)).data 0 = _
      rw [List.nil_append, ← hw, apply_append,
        apply_data_of_notMem _ fun x hx => by have := mem_transfer hx; omega]
      exact apply_transfer _ 0 bs one_pos }

/-! ## Finishing -/

def dirBytes (d : Dir) : List UInt8 := d.entries.flatMap direntLayout.enc

def dirLog (fs : Builder ss) : Log ss :=
  fs.dirs.flatMap fun d =>
    transfer (clusterLba fs.toGeometry d.firstCluster) (d.clusters * fs.spc) (dirBytes d)

/-- The sectors before the data area that are written last. -/
def tableLog (fs : Builder ss) : Log ss :=
  transfer reservedSectors fs.fatSectors (fatBytes fs) ++
    transfer (reservedSectors + fs.fatSectors) fs.fatSectors (fatBytes fs) ++
    transfer 1 1 (fsInfo ss fs) ++ transfer 7 1 (fsInfo ss fs)

theorem finish_true (hss : ss = 512 ∨ ss = 4096) (h : (fat32Finish env fs).1 = true) :
    (writeDirs env fs.dirs fs).2.log = fs.log ++ dirLog fs ∧
      (fat32Finish env fs).2 = fs.wrote (dirLog fs ++ tableLog fs) := by
  rw [fat32Finish] at ⊢
  obtain ⟨h4, heq4, h5⟩ := andThen_true h
  obtain ⟨h3, heq3, h4⟩ := andThen_true h4
  obtain ⟨h2, heq2, h3⟩ := andThen_true h3
  obtain ⟨h1, heq1, h2⟩ := andThen_true h2
  obtain ⟨-, heq0, h1⟩ := andThen_true h1
  rw [heq4]
  rw [heq3] at h5 ⊢
  rw [heq2] at h4 h5 ⊢
  rw [heq1] at h3 h4 h5 ⊢
  rw [heq0] at h2 h3 h4 h5 ⊢
  rw [writeDirs_true h1] at h2 h3 h4 h5 ⊢
  have hfat : ∀ {fs : Builder ss} {base : ℕ}, (writeFat env base fs.fatSectors fs 0).1 = true →
      writeFat env base fs.fatSectors fs 0 =
        (true, fs.wrote (transfer base fs.fatSectors (fatBytes fs))) := fun hok => by
    have := writeFat_true hss (Nat.sub_le _ _) hok
    simpa using this
  rw [hfat h2] at h3 h4 h5 ⊢
  rw [hfat h3] at h4 h5 ⊢
  rw [blockWrite_true h4] at h5 ⊢
  rw [blockWrite_true h5]
  refine ⟨rfl, ?_⟩
  rw [wrote_wrote, wrote_wrote, wrote_wrote, wrote_wrote, tableLog, List.append_assoc,
    List.append_assoc]
  rfl

structure Finished (fs : Builder ss) (boot : List UInt8) (nodes : List Node) (d : Disk ss) :
    Prop where
  boot : d.data 0 = sectorOf boot 0
  fat : ∀ copy < 2, ∀ i < fs.fatSectors,
    d.data (reservedSectors + copy * fs.fatSectors + i) = sectorOf (fatBytes fs) i
  dirs : ∀ x ∈ fs.dirs, ∀ i < x.clusters * fs.spc,
    d.data (clusterLba fs.toGeometry x.firstCluster + i) = sectorOf (dirBytes x) i
  stored : ∀ n ∈ nodes, Stored fs.toGeometry d n

section Finish

variable {lab : Vector UInt8 11} {boot : List UInt8} {fs : Builder ss} {nodes : List Node}

/-- The runs of two nodes have no cluster in common. -/
def Node.Apart (a b : Node) : Prop :=
  a.clusters ≠ 0 → b.clusters ≠ 0 → a.first + a.clusters ≤ b.first ∨ b.first + b.clusters ≤ a.first

instance : Std.Symm Node.Apart where
  symm _ _ h hb ha := (h ha hb).symm

theorem Laid.apart (h : Laid lab boot fs nodes) {a b : Node} (ha : a ∈ nodes) (hb : b ∈ nodes)
    (hne : a ≠ b) : a.Apart b := by
  have hpair : nodes.Pairwise Node.Apart := h.ordered.imp fun hab ha0 hb0 => .inl (hab ha0 hb0)
  exact hpair.forall ha hb hne

variable {d : Dir}

section

variable (h : Laid lab boot fs nodes)

include h

theorem Laid.mem_dirs (hd : d ∈ fs.dirs) :
    d = dirWith (fs.clusterBytes ss) 2 (entryWith lab 0x08 0 0 :: entriesIn nodes 2) ∨
      ∃ n ∈ nodes, n.call.isDir = true ∧ d = dirWith (fs.clusterBytes ss) n.first
        (dotEntry n.first :: dotdotEntry n.call.dir :: entriesIn nodes n.first) := by
  rw [h.dirs] at hd
  rcases List.mem_cons.mp hd with rfl | hd
  · exact .inl rfl
  · obtain ⟨n, hn, rfl⟩ := List.mem_map.mp hd
    obtain ⟨hn, hdir⟩ := List.mem_filter.mp hn
    exact .inr ⟨n, hn, hdir, rfl⟩

theorem Laid.dir_clusters (hd : d ∈ fs.dirs) :
    d.clusters = dirClusters (fs.clusterBytes ss) ∧ 2 ≤ d.firstCluster ∧
      d.firstCluster + d.clusters ≤ fs.nextCluster := by
  have hpos := dirClusters_pos (fs.clusterBytes ss)
  rcases h.mem_dirs hd with rfl | ⟨n, hn, hdir, rfl⟩
  · exact ⟨rfl, le_rfl, h.next_ge⟩
  · have hclusters := h.isDir_clusters hn hdir
    have hin := h.inside n hn (by omega)
    refine ⟨rfl, ?_, ?_⟩
    · rw [dirWith_firstCluster]
      omega
    · show n.first + dirClusters (fs.clusterBytes ss) ≤ _
      omega

theorem Laid.dirs_apart :
    fs.dirs.Pairwise fun a b => a.firstCluster + a.clusters ≤ b.firstCluster := by
  have hpos := dirClusters_pos (fs.clusterBytes ss)
  rw [h.dirs, dirsFor]
  constructor
  · intro d hd
    obtain ⟨n, hn, rfl⟩ := List.mem_map.mp hd
    obtain ⟨hn, hdir⟩ := List.mem_filter.mp hn
    have hclusters := h.isDir_clusters hn hdir
    exact (h.inside n hn (by omega)).1
  · refine List.pairwise_map.mpr ((h.ordered.filter _).imp_of_mem ?_)
    intro a b ha hb hab
    obtain ⟨ha, hadir⟩ := List.mem_filter.mp ha
    obtain ⟨hb, hbdir⟩ := List.mem_filter.mp hb
    have hac := h.isDir_clusters ha hadir
    have hbc := h.isDir_clusters hb hbdir
    have := hab (by omega) (by omega)
    rwa [hac] at this

theorem Laid.file_apart {n : Node} (hn : n ∈ nodes) (hfile : n.call.isDir = false)
    (h0 : n.clusters ≠ 0) (hd : d ∈ fs.dirs) :
    n.first + n.clusters ≤ d.firstCluster ∨ d.firstCluster + d.clusters ≤ n.first := by
  have hpos := dirClusters_pos (fs.clusterBytes ss)
  rcases h.mem_dirs hd with rfl | ⟨m, hm, hdir, rfl⟩
  · exact .inr (h.inside n hn h0).1
  · have hclusters := h.isDir_clusters hm hdir
    have := h.apart hn hm (fun heq => by simp [heq, hdir] at hfile) h0 (by omega)
    rwa [hclusters] at this

end

theorem lba_apart (g : Geometry) {c n c' n' : ℕ} (hc : 2 ≤ c) (hc' : 2 ≤ c')
    (h : c + n ≤ c' ∨ c' + n' ≤ c) :
    clusterLba g c + n * g.spc ≤ clusterLba g c' ∨ clusterLba g c' + n' * g.spc ≤ clusterLba g c := by
  rw [← clusterLba_add g n hc, ← clusterLba_add g n' hc']
  exact h.imp (clusterLba_le g) (clusterLba_le g)

theorem mem_dirLog (h : Laid lab boot fs nodes) : InData fs.toGeometry (dirLog fs) := by
  intro x hx
  obtain ⟨d, hd, hx⟩ := List.mem_flatMap.mp hx
  obtain ⟨hge, hlt⟩ := mem_transfer hx
  obtain ⟨-, h2, hlast⟩ := h.dir_clusters hd
  have hbound := clusterLba_le fs.toGeometry (hlast.trans h.next_le)
  rw [clusterLba_add fs.toGeometry _ h2, clusterLba, clusterLba, Nat.add_sub_cancel] at hbound
  unfold clusterLba at hge hlt
  omega

theorem mem_tableLog {x : ℕ × Sector ss} (hx : x ∈ tableLog fs) :
    0 < x.1 ∧ x.1 < 32 + 2 * fs.fatSectors := by
  simp only [tableLog, List.mem_append] at hx
  rcases hx with ((hx | hx) | hx) | hx <;> have := mem_transfer hx <;>
    unfold reservedSectors at * <;> omega

theorem disk_finished (fs : Builder ss) (hstart : 0 < fs.dataStart) :
    (fs.wrote (dirLog fs ++ tableLog fs)).disk.data 0 = fs.disk.data 0 := by
  have hdisk : (fs.wrote (dirLog fs ++ tableLog fs)).disk =
      fs.disk.apply (dirLog fs ++ tableLog fs) := (apply_append _ _ _)
  rw [hdisk]
  refine apply_data_of_notMem _ fun x hx => ?_
  rcases List.mem_append.mp hx with hx | hx
  · obtain ⟨d, -, hx⟩ := List.mem_flatMap.mp hx
    have := mem_transfer hx
    unfold clusterLba at this
    omega
  · have := mem_tableLog hx
    omega

theorem Laid.finished (h : Laid lab boot fs nodes) :
    Finished fs boot nodes (fs.disk.apply (dirLog fs ++ tableLog fs)) := by
  have hstart := h.good.dataStart
  have hbehind : ∀ lba, fs.dataStart ≤ lba →
      (fs.disk.apply (dirLog fs ++ tableLog fs)).data lba = (fs.disk.apply (dirLog fs)).data lba := by
    intro lba hlba
    rw [apply_append]
    refine apply_data_of_notMem _ fun x hx => ?_
    have := mem_tableLog hx
    omega
  refine ⟨?_, ?_, ?_, ?_⟩
  · rw [← h.boot, ← disk_finished fs (by omega)]
    exact congrArg (fun d => d.data 0) (apply_append fs.dev _ _).symm
  · intro copy hcopy i hi
    rw [apply_append, tableLog, apply_append, apply_append, apply_append]
    rw [apply_data_of_notMem _ fun x hx => ?_, apply_data_of_notMem _ fun x hx => ?_]
    · rcases (by omega : copy = 0 ∨ copy = 1) with rfl | rfl
      · rw [zero_mul, apply_data_of_notMem _ fun x hx => ?_]
        · exact apply_transfer _ _ _ hi
        · have := mem_transfer hx
          omega
      · rw [one_mul]
        exact apply_transfer _ _ _ hi
    all_goals
      have := mem_transfer hx
      unfold reservedSectors
      omega
  · intro d hd i hi
    rw [hbehind _ (by unfold clusterLba; omega)]
    refine apply_transfers _ (h.dirs_apart.imp_of_mem fun {a b} ha hb hab => ?_) hd hi
    exact lba_apart _ (h.dir_clusters ha).2.1 (h.dir_clusters hb).2.1 (.inl hab)
  · intro n hn hfile i hi
    rw [hbehind _ (by unfold clusterLba; omega)]
    refine (apply_data_of_notMem _ fun x hx => ?_).trans (h.stored n hn hfile i hi)
    obtain ⟨d, hd, hx⟩ := List.mem_flatMap.mp hx
    have hmem := mem_transfer hx
    obtain ⟨h0, hsectors⟩ := h.file_clusters hn hfile hi
    have := lba_apart fs.toGeometry (by have := h.inside n hn h0; omega) (h.dir_clusters hd).2.1
      (h.file_apart hn hfile h0 hd)
    omega

end Finish

end MinimalOS.Fat32
