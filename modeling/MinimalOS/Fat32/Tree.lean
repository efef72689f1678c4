import MinimalOS.Fat32.Finish

/-!
# Reading a finished volume

The boot sector gives back the sizes of the volume, the FAT gives back the runs of clusters, and
these hold what was written into them. So a reader finds the tree of all calls (`build_holds`).
-/

namespace MinimalOS.Fat32

open Packed MinimalOS.Partition Option

variable {ss : ℕ}

/-! ## Sizes -/

variable {buf : List UInt8}

theorem toList_sectorOf (h : buf.length = ss) : (sectorOf buf 0 : Sector ss).toList = buf := by
  apply List.ext_getElem
  · rw [Vector.length_toList, h]
  · intro i h1 h2
    simp [sectorOf, List.getElem?_eq_getElem h2]

section Boot

variable {g : Geometry} {hidden volumeId : ℕ} {lab : Vector UInt8 11}

theorem bootFields_before : (bootFields ss g hidden volumeId lab).Pairwise Patch.Before := by
  simp [bootFields, Patch.Before, length_le, CString.ascii]

theorem bootFields_fit (hss : 512 ≤ ss) :
    ∀ w ∈ bootFields ss g hidden volumeId lab, Patch.Fits (List.replicate ss 0) w := by
  simp [bootFields, Patch.Fits, length_le, CString.ascii]
  omega

theorem field_boot (hss : 512 ≤ ss) {off w n : ℕ}
    (hmem : (off, le w n) ∈ bootFields ss g hidden volumeId lab) :
    field (bootSector ss g hidden volumeId lab) off w = n % 256 ^ w := by
  have hread := Patch.range_writeAll bootFields_before (bootFields_fit hss) hmem
  rw [length_le] at hread
  rw [field, bootSector, hread, leNat_le]

theorem length_boot (hss : 512 ≤ ss) : (bootSector ss g hidden volumeId lab).length = ss := by
  rw [bootSector, Patch.length_writeAll (bootFields_fit hss), List.length_replicate]

def volumeOf (g : Geometry) (d : Disk ss) : Volume ss where
  disk := d
  spc := g.spc
  reserved := reservedSectors
  fats := numFats
  fatSectors := g.fatSectors
  clusters := g.clusterCount
  root := 2

theorem mount_eq {sectors : ℕ} (hgood : g.Good ss sectors) {d : Disk ss}
    (hboot : d.data 0 = sectorOf (bootSector ss g hidden volumeId lab) 0) :
    mount d = some (volumeOf g d) := by
  have hss : 512 ≤ ss := by have := hgood.sectorSize; omega
  have hsize := hgood.sectorSize
  have hspc : g.spc ≤ 64 := by
    have := hgood.clusterBytes_le
    rcases hsize with rfl | rfl <;> omega
  have hfat : g.fatSectors < 2 ^ 32 := by
    have := hgood.room
    have := hgood.dataStart
    have := hgood.sectors_lt
    omega
  have hsig : (510, le 2 0xAA55) ∈ bootFields ss g hidden volumeId lab := by
    rw [show le 2 0xAA55 = [0x55, 0xAA] by decide]
    simp [bootFields]
  generalize hbs : bootSector ss g hidden volumeId lab = bs at hboot
  have h510 : field bs 510 2 = 0xAA55 := hbs ▸ field_boot hss hsig
  have h11 : field bs 11 2 = ss := by
    rw [← hbs, field_boot hss (n := ss) (by simp [bootFields])]
    omega
  have h13 : field bs 13 1 = g.spc := by
    rw [← hbs, field_boot hss (n := g.spc) (by simp [bootFields])]
    omega
  have h14 : field bs 14 2 = reservedSectors := by
    rw [← hbs, field_boot hss (n := reservedSectors) (by simp [bootFields])]
    rfl
  have h16 : field bs 16 1 = numFats := by
    rw [← hbs, field_boot hss (n := numFats) (by simp [bootFields])]
    rfl
  have h32 : field bs 32 4 = sectors := by
    have := hgood.sectors_lt
    rw [← hbs, field_boot hss (n := g.totalSectors) (by simp [bootFields]), hgood.total]
    omega
  have h36 : field bs 36 4 = g.fatSectors := by
    rw [← hbs, field_boot hss (n := g.fatSectors) (by simp [bootFields])]
    omega
  have h44 : field bs 44 4 = 2 := by
    rw [← hbs, field_boot hss (n := 2) (by simp [bootFields])]
    rfl
  have hclusters := hgood.clusters
  rw [hgood.dataStart] at hclusters
  rw [mount, hboot, toList_sectorOf (hbs ▸ length_boot hss)]
  rw [if_pos ⟨h11, h510⟩, h13, h14, h16, h32, h36, h44]
  exact congrArg some (congrArg (fun n => Volume.mk d _ _ _ _ n _) hclusters)

end Boot

/-! ## Chains -/

theorem range_sectorOf {k w : ℕ} (hk : k % ss + w ≤ ss) (hbuf : k + w ≤ buf.length) :
    Patch.range (sectorOf buf (k / ss) : Sector ss).toList (k % ss) w = Patch.range buf k w := by
  have hdiv := Nat.div_add_mod' k ss
  unfold Patch.range
  apply List.ext_getElem
  · simp only [List.length_take, List.length_drop, Vector.length_toList]
    omega
  · intro i h1 h2
    simp only [List.length_take, List.length_drop] at h1 h2
    simp only [List.getElem_take, List.getElem_drop, Vector.getElem_toList, sectorOf,
      Vector.getElem_ofFn, List.getD_eq_getElem?_getD]
    rw [← add_assoc, hdiv, List.getElem?_eq_getElem (by omega)]
    rfl

variable {c copy first : ℕ} {n : Node}

theorem range_fatBytes (fs : Builder ss) (hc : c < fs.clusterCount + 2) :
    Patch.range (fatBytes fs) (4 * c) 4 = u32.enc (fs.fat c) := by
  have hmap : fatBytes fs = ((List.range (fs.clusterCount + 2)).map fs.fat).flatMap u32.enc ++ [] := by
    rw [List.append_nil, List.flatMap_map]
    rfl
  rw [Patch.range, hmap, mul_comm 4 c, show 4 = u32.size from rfl,
    drop_flatMap_enc u32 _ _ (by simp; omega), List.drop_eq_getElem_cons (by simpa using hc),
    List.flatMap_cons, List.getElem_map, List.getElem_range]
  exact List.take_left' (u32.length_enc _)

theorem length_fatBytes (fs : Builder ss) : (fatBytes fs).length = (fs.clusterCount + 2) * 4 := by
  rw [fatBytes]
  simp [show u32.size = 4 from rfl]

section Read

variable {fs : Builder ss} {boot : List UInt8} {nodes : List Node} {d : Disk ss}

theorem next_eq (hgood : fs.toGeometry.Good ss fs.dev.sectors) (hd : Finished fs boot nodes d)
    (hcopy : copy < 2) (hc : c < fs.clusterCount + 2) :
    (volumeOf fs.toGeometry d).next copy c = (fs.fat c).toNat % 2 ^ 28 := by
  have hss : ss % 4 = 0 ∧ 0 < ss := by have := hgood.sectorSize; omega
  have hfour : fs.fatSectors * (ss / 4) * 4 = fs.fatSectors * ss := by
    rw [mul_assoc, Nat.div_mul_cancel (Nat.dvd_of_mod_eq_zero hss.1)]
  have hsector : 4 * c / ss < fs.fatSectors := by
    have := hgood.fat
    exact (Nat.div_lt_iff_lt_mul hss.2).mpr (by omega)
  have hoff : 4 * c % ss + 4 ≤ ss := by
    have hmod : 4 * c % ss % 4 = 0 := by
      rw [Nat.mod_mod_of_dvd _ (Nat.dvd_of_mod_eq_zero hss.1)]
      omega
    have := Nat.mod_lt (4 * c) hss.2
    omega
  have hnum : leNat (u32.enc (fs.fat c)) = (fs.fat c).toNat :=
    (leNat_le 4 _).trans (Nat.mod_eq_of_lt (fs.fat c).toNat_lt)
  show field (d.data (reservedSectors + copy * fs.fatSectors + 4 * c / ss)).toList _ _ % _ = _
  rw [hd.fat copy hcopy _ hsector, field,
    range_sectorOf hoff (by rw [length_fatBytes]; omega), range_fatBytes fs hc, hnum]

theorem clusterData_run (hgood : fs.toGeometry.Good ss fs.dev.sectors) (d : Disk ss)
    (hfirst : 2 ≤ first) (n : ℕ) :
    (List.range' first n).flatMap (volumeOf fs.toGeometry d).clusterData =
      (List.range (n * fs.spc)).flatMap fun i =>
        (d.data (clusterLba fs.toGeometry first + i)).toList := by
  have hstart : (volumeOf fs.toGeometry d).dataStart = fs.dataStart := hgood.dataStart.symm
  have hone : ∀ c, (volumeOf fs.toGeometry d).clusterData c = (List.range fs.spc).flatMap fun i =>
      (d.data (clusterLba fs.toGeometry c + i)).toList := fun c => by
    rw [Volume.clusterData, hstart]
    rfl
  induction n with
  | zero => simp
  | succ n ih =>
    rw [List.range'_1_concat, List.flatMap_append, ih, List.flatMap_singleton, hone,
      clusterLba_add _ n hfirst, Nat.succ_mul, List.range_add, List.flatMap_append,
      List.flatMap_map]
    simp only [add_assoc]

section Chain

variable (hgood : fs.toGeometry.Good ss fs.dev.sectors) (hd : Finished fs boot nodes d)
  (hcopy : copy < 2) {n : ℕ} (hlinked : Linked fs.fat first n) (hfirst : 2 ≤ first)
  (hlast : first + n ≤ fs.clusterCount + 2)

include hgood hd hcopy hlinked hfirst hlast

theorem chainUpTo_eq {m : ℕ} (hm : m < n) {fuel : ℕ} (hfuel : n - m ≤ fuel) :
    (volumeOf fs.toGeometry d).chainUpTo copy fuel (first + m) =
      some (List.range' (first + m) (n - m)) := by
  induction fuel generalizing m with
  | zero => omega
  | succ fuel ih =>
    have hnext := next_eq hgood hd hcopy (by omega : first + m < fs.clusterCount + 2)
    have hfew := hgood.few
    have hclusters : (volumeOf fs.toGeometry d).clusters = fs.clusterCount := rfl
    rw [hlinked m hm] at hnext
    rw [Volume.chainUpTo, if_neg (by rw [hclusters]; omega), hnext]
    rcases (by omega : m + 1 < n ∨ m + 1 = n) with hmore | hend
    · have hval : (UInt32.ofNat (first + m + 1)).toNat % 2 ^ 28 = first + (m + 1) := by
        rw [UInt32.toNat_ofNat']
        omega
      rw [if_pos hmore, hval, if_neg (by omega), ih hmore (by omega),
        show n - m = (n - (m + 1)) + 1 by omega]
      rfl
    · rw [if_neg (by omega : ¬ m + 1 < n), if_pos (by decide), show n - m = 1 by omega,
        List.range'_one]

theorem chain_eq (hn : n ≠ 0) :
    (volumeOf fs.toGeometry d).chain copy first = some (List.range' first n) := by
  refine chainUpTo_eq hgood hd hcopy hlinked hfirst hlast (m := 0) (by omega) ?_
  show n - 0 ≤ fs.clusterCount
  omega

theorem chainData_eq (hn : n ≠ 0) :
    (volumeOf fs.toGeometry d).chainData copy first = some ((List.range (n * fs.spc)).flatMap fun i =>
      (d.data (clusterLba fs.toGeometry first + i)).toList) := by
  rw [Volume.chainData, chain_eq hgood hd hcopy hlinked hfirst hlast hn, map_some,
    clusterData_run hgood d hfirst n]

end Chain

/-! ## Directories and files -/

theorem upper_eq {c x : UInt8} (hx : x = 0 ∨ x = 0xE5) (h : upper c = x) : c = x := by
  have hall : ∀ n < 256, upper (UInt8.ofNat n) = 0 ∨ upper (UInt8.ofNat n) = 0xE5 →
      upper (UInt8.ofNat n) = UInt8.ofNat n := by decide +kernel
  have hc := hall c.toNat c.toNat_lt
  rw [UInt8.ofNat_toNat, h] at hc
  exact (hc hx).symm

theorem make83_first {name : List UInt8} {x : UInt8} (hx : x = 0 ∨ x = 0xE5)
    (h : Volume.firstByte (make83 name) = x) : x ≠ 0 ∧ name.head? = some x := by
  have h32 : x ≠ 32 := by rcases hx with rfl | rfl <;> decide
  -- the stem is empty or starts with the first character
  obtain ⟨stem, hstem, hfirst⟩ : ∃ stem : List UInt8, (stem = [] ∨ ∃ c, c ≠ 0 ∧
      stem.head? = some c ∧ name.head? = some c) ∧
        Volume.firstByte (make83 name) = ((stem.take 8).map upper).getD 0 32 := by
    cases name with
    | nil => exact ⟨[], .inl rfl, rfl⟩
    | cons c cs =>
      rcases hdot : CString.strrchr 46 (c :: cs) with _ | dot
      · refine ⟨CString.cstr (c :: cs), ?_, ?_⟩
        · rcases eq_or_ne c 0 with rfl | h0
          · exact .inl rfl
          · exact .inr ⟨c, h0, by rw [CString.cstr_cons cs h0]; rfl, rfl⟩
        · simp [make83, hdot, Volume.firstByte]
      · have h0 : c ≠ 0 := by
          rintro rfl
          simp [CString.strrchr] at hdot
        refine ⟨(c :: cs).take ((c :: cs).length - dot.length), ?_, ?_⟩
        · cases (c :: cs).length - dot.length with
          | zero => exact .inl rfl
          | succ k => exact .inr ⟨c, h0, rfl, rfl⟩
        · simp [make83, hdot, Volume.firstByte]
  rw [hfirst] at h
  rcases hstem with rfl | ⟨c, h0, hhead, hname⟩
  · exact absurd h.symm h32
  · obtain ⟨rest, rfl⟩ : ∃ rest, stem = c :: rest := List.head?_eq_some_iff.mp hhead
    obtain rfl := upper_eq hx h
    exact ⟨h0, hname⟩

theorem dec_zeros (n : ℕ) :
    Volume.firstByte (direntLayout.dec (List.replicate n 0)).name = 0 := by
  have hname : Volume.firstByte (direntLayout.dec (List.replicate n 0)).name =
      UInt8.ofNat (leNat ((List.replicate n (0 : UInt8)).take 1)) := rfl
  cases n with
  | zero => rfl
  | succ n => rfl

theorem slots_eq {es : List Dirent} (hes : ∀ e ∈ es, Volume.firstByte e.name ≠ 0) (k : ℕ) :
    Volume.slots (es.flatMap direntLayout.enc ++ List.replicate (k * direntBytes) 0) = es := by
  have hsize : direntLayout.size = direntBytes := rfl
  have hlen : (es.flatMap direntLayout.enc ++ List.replicate (k * direntBytes) 0).length / direntBytes
      = es.length + k := by
    rw [List.length_append, length_flatMap_enc, List.length_replicate, hsize, ← add_mul]
    exact Nat.mul_div_cancel _ (by decide)
  have hfilled : ((List.range es.length).map fun i => direntLayout.dec
      ((es.flatMap direntLayout.enc ++ List.replicate (k * direntBytes) 0).drop (i * direntBytes)))
      = es := by
    apply List.ext_getElem
    · rw [List.length_map, List.length_range]
    · intro i h1 h2
      rw [List.getElem_map, List.getElem_range, ← hsize,
        drop_flatMap_enc direntLayout _ _ h2.le, List.drop_eq_getElem_cons h2, List.flatMap_cons,
        List.append_assoc, direntLayout.dec_enc]
  have hzero : ∀ i, direntLayout.dec ((es.flatMap direntLayout.enc ++
      List.replicate (k * direntBytes) 0).drop ((es.length + i) * direntBytes)) =
        direntLayout.dec (List.replicate (k * direntBytes - i * direntBytes) 0) := fun i => by
    rw [add_mul, ← List.drop_drop, List.drop_left' (by rw [length_flatMap_enc, hsize]),
      List.drop_replicate]
  rw [Volume.slots, hlen, List.range_add, List.map_append, hfilled,
    List.takeWhile_append_of_pos (by simpa [Volume.firstByte] using hes), List.map_map]
  conv_rhs => rw [← List.append_nil es]
  congr 1
  cases k with
  | zero => rfl
  | succ k =>
    rw [List.range_succ_eq_map, List.map_cons, List.takeWhile_cons_of_neg]
    simp only [Function.comp_apply, hzero]
    exact fun h => of_decide_eq_true h (dec_zeros _)

theorem first_entryWith (name : Vector UInt8 11) (attr : UInt8) {cluster : ℕ} (size : ℕ)
    (h : cluster < 2 ^ 32) : (entryWith name attr cluster size).first = cluster := by
  show (UInt16.ofNat (cluster / 2 ^ 16)).toNat * 2 ^ 16 + (UInt16.ofNat cluster).toNat = cluster
  rw [UInt16.toNat_ofNat', UInt16.toNat_ofNat']
  omega

theorem live_entry (h : n.call.name.head? ≠ some 0xE5) :
    Volume.live n.entry = true ∧ Volume.firstByte n.entry.name ≠ 0 := by
  have hname : n.entry.name = make83 n.call.name := rfl
  have hattr : n.entry.attr &&& 0x08 = 0 := by
    show (if n.call.isDir then (0x10 : UInt8) else 0x20) &&& 0x08 = 0
    split <;> decide
  constructor
  · rw [Volume.live, decide_eq_true_eq]
    exact ⟨fun h5 => h (make83_first (.inr rfl) h5).2, hattr⟩
  · exact fun h0 => (make83_first (.inl rfl) h0).1 rfl

theorem live_dots {dots : ℕ} (h : 0 < dots) (cluster : ℕ) :
    Volume.live (entryWith (dotName dots) 0x10 cluster 0) = true ∧
      (entryWith (dotName dots) 0x10 cluster 0).name[0] ≠ 0 := by
  have hfirst : (dotName dots)[0] = 46 := by simp [dotName, h]
  have hname : (entryWith (dotName dots) 0x10 cluster 0).name[0] = 46 := hfirst
  have hattr : (0x10 : UInt8) &&& 0x08 = 0 := by decide
  rw [Volume.live, decide_eq_true_eq, hname]
  exact ⟨⟨by decide, hattr⟩, by decide⟩

variable {lab : Vector UInt8 11}

theorem Laid.live_entriesIn (h : Laid lab boot fs nodes) (dir : ℕ) :
    ∀ e ∈ entriesIn nodes dir, Volume.live e = true ∧ Volume.firstByte e.name ≠ 0 := by
  intro e he
  obtain ⟨n, hn, rfl⟩ := List.mem_map.mp he
  exact live_entry (h.names n (List.mem_filter.mp hn).1)

section Entries

variable (h : Laid lab boot fs nodes) (hd : Finished fs boot nodes d) (hcopy : copy < 2)

include h hd hcopy

variable {x : Dir}

section

variable (hx : x ∈ fs.dirs) (hlinked : Linked fs.fat x.firstCluster x.clusters)
  (hcap : x.capacity = capacity (fs.clusterBytes ss))

include hx hlinked hcap

theorem Laid.chainData_dir :
    (volumeOf fs.toGeometry d).chainData copy x.firstCluster =
      some (x.entries.flatMap direntLayout.enc ++
        List.replicate ((x.capacity - x.entries.length) * direntBytes) 0) := by
  obtain ⟨hclusters, hfirst, hlast⟩ := h.dir_clusters hx
  have hroom := h.room x hx
  have hpos := dirClusters_pos (fs.clusterBytes ss)
  have hbytes : x.clusters * fs.spc * ss = x.capacity * direntBytes := by
    have hdvd : direntBytes ∣ fs.clusterBytes ss := by
      refine Dvd.dvd.mul_left ?_ _
      rcases h.good.sectorSize with rfl | rfl <;> decide
    rw [hcap, capacity, Nat.div_mul_cancel (hdvd.mul_left _), hclusters, mul_assoc]
    rfl
  have hlen : (dirBytes x).length = x.entries.length * direntBytes :=
    length_flatMap_enc direntLayout _
  rw [chainData_eq h.good hd hcopy hlinked hfirst (hlast.trans h.next_le) (by omega)]
  have hsectors : ((List.range (x.clusters * fs.spc)).flatMap fun i =>
      (d.data (clusterLba fs.toGeometry x.firstCluster + i)).toList) =
        (List.range (x.clusters * fs.spc)).flatMap fun i =>
          (sectorOf (dirBytes x) i : Sector ss).toList :=
    List.flatMap_congr fun i hi => by rw [hd.dirs x hx i (List.mem_range.mp hi)]
  have hle : (dirBytes x).length ≤ x.clusters * fs.spc * ss := by
    rw [hlen, hbytes]
    exact Nat.mul_le_mul_right _ hroom
  rw [hsectors, flatMap_sectorOf, map_getD_range _ hle, hlen, hbytes, ← Nat.sub_mul]
  rfl

theorem Laid.entries_dir (hnames : ∀ e ∈ x.entries, e.name[0] ≠ 0) :
    (volumeOf fs.toGeometry d).entries copy x.firstCluster = some (x.entries.filter Volume.live) := by
  rw [Volume.entries, h.chainData_dir hd hcopy hx hlinked hcap, map_some,
    slots_eq hnames]

end

theorem Laid.entries_root (hlab : lab[0] ≠ 0) :
    (volumeOf fs.toGeometry d).entries copy 2 = some (entriesIn nodes 2) := by
  have hmem : dirWith (fs.clusterBytes ss) 2 (entryWith lab 0x08 0 0 :: entriesIn nodes 2) ∈ fs.dirs := by
    rw [h.dirs]
    exact List.mem_cons_self
  have hnames : ∀ e ∈ entryWith lab 0x08 0 0 :: entriesIn nodes 2, e.name[0] ≠ 0 := by
    intro e he
    rcases List.mem_cons.mp he with rfl | he
    · exact hlab
    · exact (h.live_entriesIn 2 e he).2
  have hread := h.entries_dir hd hcopy hmem h.rootLinked rfl hnames
  have hlabel : Volume.live (entryWith lab 0x08 0 0) = false := by simp [Volume.live, entryWith]
  rw [dirWith_firstCluster] at hread
  rw [hread]
  refine congrArg some ((List.filter_cons_of_neg (by simp [hlabel])).trans ?_)
  exact List.filter_eq_self.mpr fun e he => (h.live_entriesIn 2 e he).1

theorem Laid.entries_node (hn : n ∈ nodes) (hdir : n.call.isDir = true) :
    (volumeOf fs.toGeometry d).entries copy n.first =
      some (dotEntry n.first :: dotdotEntry n.call.dir :: entriesIn nodes n.first) := by
  have hmem : dirWith (fs.clusterBytes ss) n.first
      (dotEntry n.first :: dotdotEntry n.call.dir :: entriesIn nodes n.first) ∈ fs.dirs := by
    rw [h.dirs]
    exact List.mem_cons_of_mem _ (List.mem_map.mpr ⟨n, List.mem_filter.mpr ⟨hn, hdir⟩, rfl⟩)
  have hlive : ∀ e ∈ dotEntry n.first :: dotdotEntry n.call.dir :: entriesIn nodes n.first,
      Volume.live e = true ∧ e.name[0] ≠ 0 := by
    intro e he
    rcases List.mem_cons.mp he with rfl | he
    · exact live_dots one_pos _
    rcases List.mem_cons.mp he with rfl | he
    · exact live_dots two_pos _
    · exact h.live_entriesIn _ e he
  have hlinked := h.linked n hn
  rw [h.isDir_clusters hn hdir] at hlinked
  have hread := h.entries_dir hd hcopy hmem hlinked rfl fun e he => (hlive e he).2
  rw [dirWith_firstCluster] at hread
  rw [hread]
  exact congrArg some (List.filter_eq_self.mpr fun e he => (hlive e he).1)

end Entries

theorem Laid.first_lt (h : Laid lab boot fs nodes) (hn : n ∈ nodes) : n.first < 2 ^ 32 := by
  have hfew := h.good.few
  have hnext := h.next_le
  rcases eq_or_ne n.clusters 0 with h0 | h0
  · have hsized := h.sized n hn
    rw [Node.Sized] at hsized
    split at hsized
    · have := dirClusters_pos (fs.clusterBytes ss)
      omega
    · omega
  · have := h.inside n hn h0
    omega

section

variable (h : Laid lab boot fs nodes) (hd : Finished fs boot nodes d) (hcopy : copy < 2)

include h hd hcopy

theorem Laid.contents_eq (hn : n ∈ nodes) (hfile : n.call.isDir = false) :
    (volumeOf fs.toGeometry d).contents copy n.entry = some n.call.data := by
  have hss : 0 < ss := by have := h.good.sectorSize; omega
  have hsized := h.sized n hn
  rw [Node.Sized, if_neg (by simp [hfile])] at hsized
  have hsize : n.entry.fileSize.toNat = n.call.data.length := by
    show (UInt32.ofNat n.call.data.length).toNat = _
    rw [UInt32.toNat_ofNat']
    omega
  have hfirst : n.entry.first = n.first := first_entryWith _ _ _ (h.first_lt hn)
  rw [Volume.contents]
  split
  · rename_i h0
    rw [h0] at hsize
    exact congrArg some (List.length_eq_zero_iff.mp hsize.symm).symm
  rename_i h0
  have hpos : 0 < n.call.data.length := by
    rw [← hsize]
    exact Nat.pos_of_ne_zero fun hz => h0 (UInt32.toNat_inj.mp hz)
  have hceil : n.call.data.length ≤ (n.call.data.length + ss - 1) / ss * ss := by
    have := Nat.lt_div_mul_add hss (a := n.call.data.length + ss - 1)
    omega
  have hsome : 0 < (n.call.data.length + ss - 1) / ss := by
    refine Nat.pos_of_ne_zero fun hz => ?_
    rw [hz] at hceil
    omega
  obtain ⟨h0, hin⟩ := h.file_clusters hn hfile
    (i := (n.call.data.length + ss - 1) / ss - 1) (by omega)
  obtain ⟨hge, hle⟩ := h.inside n hn h0
  rw [hfirst, chainData_eq h.good hd hcopy (h.linked n hn) (by omega) (hle.trans h.next_le) h0]
  dsimp only
  -- the sectors that were written, and those behind them
  obtain ⟨rest, hrest⟩ := Nat.exists_eq_add_of_le
    (by omega : (n.call.data.length + ss - 1) / ss ≤ n.clusters * fs.spc)
  have hwritten : ((List.range ((n.call.data.length + ss - 1) / ss)).flatMap fun i =>
      (d.data (clusterLba fs.toGeometry n.first + i)).toList) = n.call.data ++
        List.replicate ((n.call.data.length + ss - 1) / ss * ss - n.call.data.length) 0 := by
    rw [← map_getD_range _ hceil, ← flatMap_sectorOf]
    exact List.flatMap_congr fun i hi => by rw [hd.stored n hn hfile i (List.mem_range.mp hi)]
  rw [hrest, List.range_add, List.flatMap_append, hwritten, hsize, List.append_assoc,
    if_neg (by rw [List.length_append]; omega), List.take_left' rfl]

/-! ## The tree -/

theorem Laid.children_eq (hlab : lab[0] ≠ 0) (hc : IsHandle nodes c) :
    (volumeOf fs.toGeometry d).children copy c = some (entriesIn nodes c) := by
  have hroot : (volumeOf fs.toGeometry d).root = 2 := rfl
  rw [Volume.children, hroot]
  rcases hc with rfl | ⟨n, hn, hdir, rfl⟩
  · rw [h.entries_root hd hcopy hlab, map_some, if_pos rfl, List.drop_zero]
  · have hclusters := h.isDir_clusters hn hdir
    have hpos := dirClusters_pos (fs.clusterBytes ss)
    have hin := h.inside n hn (by omega)
    rw [h.entries_node hd hcopy hn hdir, if_neg (by omega)]
    rfl

end

theorem isDir_of_attr (h : n.entry.attr = 0x10) : n.call.isDir = true := by
  have hattr : (if n.call.isDir then (0x10 : UInt8) else 0x20) = 0x10 := h
  by_contra hfile
  rw [if_neg hfile] at hattr
  exact absurd hattr (by decide)

theorem Laid.reached_iff (h : Laid lab boot fs nodes) (hd : Finished fs boot nodes d)
    (hcopy : copy < 2) (hlab : lab[0] ≠ 0) (c : ℕ) :
    (volumeOf fs.toGeometry d).Reached copy c ↔ IsHandle nodes c := by
  constructor
  · intro hreached
    induction hreached with
    | root => exact .inl rfl
    | child _ hes he hdir ih =>
      rw [h.children_eq hd hcopy hlab ih] at hes
      cases hes
      obtain ⟨n, hn, rfl⟩ := List.mem_map.mp he
      have hn := (List.mem_filter.mp hn).1
      exact .inr ⟨n, hn, isDir_of_attr hdir, (first_entryWith _ _ _ (h.first_lt hn)).symm⟩
  · -- by induction on the number of older nodes, since a directory is in an older one
    have hbefore : ∀ k before behind, before.length ≤ k → nodes = before ++ behind →
        ∀ c, IsHandle before c → (volumeOf fs.toGeometry d).Reached copy c := by
      intro k
      induction k with
      | zero =>
        rintro before behind hlen - c (rfl | ⟨n, hn, -⟩)
        · exact .root
        · rw [List.length_eq_zero_iff.mp (Nat.le_zero.mp hlen)] at hn
          simp at hn
      | succ k ih =>
        rintro before behind hlen heq c (rfl | ⟨n, hn, hdir, rfl⟩)
        · exact .root
        obtain ⟨older, newer, rfl⟩ := List.append_of_mem hn
        rw [List.append_assoc] at heq
        have hparent := h.parents older n _ heq
        have hreached := ih older _ (by simp at hlen; omega) heq _ hparent
        have hmem : n ∈ nodes := by simp [heq]
        have hhandle : IsHandle nodes n.call.dir := by
          rcases hparent with h2 | ⟨m, hm, hm'⟩
          · exact .inl h2
          · exact .inr ⟨m, by simp [heq, hm], hm'⟩
        have hfirst : n.entry.first = n.first := first_entryWith _ _ _ (h.first_lt hmem)
        rw [← hfirst]
        refine .child hreached (h.children_eq hd hcopy hlab hhandle)
          (List.mem_map.mpr ⟨n, List.mem_filter.mpr ⟨hmem, by simp⟩, rfl⟩) ?_
        show (if n.call.isDir then (0x10 : UInt8) else 0x20) = 0x10
        rw [if_pos hdir]
    exact hbefore nodes.length nodes [] le_rfl (List.append_nil _).symm c

theorem Laid.disjoint (h : Laid lab boot fs nodes) :
    (List.range' 2 (dirClusters (fs.clusterBytes ss)) :: nodes.map Node.chain).Pairwise
      List.Disjoint := by
  have hmem : ∀ {first n c : ℕ}, c ∈ List.range' first n ↔ first ≤ c ∧ c < first + n :=
    List.mem_range'_1
  rw [List.pairwise_cons, List.pairwise_map]
  constructor
  · intro chain hchain c hc hc'
    obtain ⟨n, hn, rfl⟩ := List.mem_map.mp hchain
    rw [Node.chain, hmem] at hc'
    rw [hmem] at hc
    have := h.inside n hn (by omega)
    omega
  · refine h.ordered.imp fun {a b} hab c hc hc' => ?_
    rw [Node.chain, hmem] at hc hc'
    omega

/-- **The finished volume.** -/
theorem Laid.holds (h : Laid lab boot fs nodes) (hd : Finished fs boot nodes d)
    (hcopy : copy < 2) (hlab : lab[0] ≠ 0) : Holds (volumeOf fs.toGeometry d) copy nodes where
  root_entries := h.entries_root hd hcopy hlab
  dir_entries _ hn hdir := h.entries_node hd hcopy hn hdir
  reached c := h.reached_iff hd hcopy hlab c
  placed n hn := by
    obtain ⟨before, behind, heq⟩ := List.append_of_mem hn
    refine (h.reached_iff hd hcopy hlab _).mpr ?_
    rcases h.parents before n behind heq with h2 | ⟨m, hm, hm'⟩
    · exact .inl h2
    · exact .inr ⟨m, by simp [heq, hm], hm'⟩
  entry_first _ hn := first_entryWith _ _ _ (h.first_lt hn)
  contents _ hn hfile := h.contents_eq hd hcopy hn hfile
  chain n hn h0 := by
    obtain ⟨hge, hle⟩ := h.inside n hn h0
    exact chain_eq h.good hd hcopy (h.linked n hn) (by omega) (hle.trans h.next_le) h0
  clusters n hn := by
    have hsized := h.sized n hn
    have hbytes := h.good.clusterBytes_ge
    rw [Node.Sized] at hsized
    split at hsized
    · rename_i hdir
      have := dirClusters_pos (fs.clusterBytes ss)
      simp [hdir]
      omega
    · rename_i hdir
      have hfile : n.call.isDir = false := by simpa using hdir
      rw [hsized.2.1, Nat.div_eq_zero_iff, ← List.length_eq_zero_iff]
      simp only [hfile, true_and]
      omega
  disjoint := by
    have hpos := dirClusters_pos (fs.clusterBytes ss)
    exact ⟨_, chain_eq h.good hd hcopy h.rootLinked le_rfl (h.next_ge.trans h.next_le) (by omega),
      h.disjoint⟩

end Read

/-- What a sequence of calls and `fat32_finish` make of a device: a volume with the tree of the
calls, where a directory is where its handle says, and where file data and directories were written
to the data area only. -/
def Delivers (env : Env ss) (fs : Builder ss) (calls : List Call) : Prop :=
  ∃ (v : Volume ss) (nodes : List Node) (files dirs : Log ss),
    mount (fat32Finish env (run env fs calls).2).2.disk = some v ∧
    nodes.map Node.call = calls ∧ List.Forall₂ Returned nodes (run env fs calls).1 ∧
    (∀ copy < v.fats, Holds v copy nodes) ∧
    (run env fs calls).2.log = fs.log ++ files ∧
    (writeDirs env (run env fs calls).2.dirs (run env fs calls).2).2.log =
      fs.log ++ files ++ dirs ∧
    ∀ w ∈ files ++ dirs, v.dataStart ≤ w.1 ∧ w.1 < fs.dev.sectors

/-- **Volumes.** Whatever is built by calls that succeed is on the finished volume, if no name
starts with the mark of a free entry and no directory is given its own cluster as its parent. -/
theorem build_holds (env : Env ss) (dev : Disk ss) (label : Option (List UInt8))
    (volumeId hidden : ℕ) (calls : List Call) (fs : Builder ss)
    (hcreate : fat32Create env dev label volumeId hidden = .ok fs)
    (hok : ∀ r ∈ (run env fs calls).1, r ≠ 0)
    (hsize : ∀ c ∈ calls, c.data.length ≤ 2 ^ 32 - 32768)
    (hfinish : (fat32Finish env (run env fs calls).2).1 = true)
    (husable : AllUsable env fs calls) : Delivers env fs calls := by
  obtain ⟨-, hlaid⟩ := create_laid hcreate
  have hlab : (make83 (label.getD (CString.ascii "NO NAME")))[0] ≠ 0 :=
    fun h0 => (make83_first (.inl rfl) h0).1 rfl
  obtain ⟨nodes, files, hcalls, hrets, hfiles, hgeo, hlog, hrun⟩ := run_laid calls hlaid husable hsize hok
  obtain ⟨hdirs, hfinal⟩ := finish_true hrun.good.sectorSize hfinish
  have hdisk : (fat32Finish env (run env fs calls).2).2.disk =
      (run env fs calls).2.disk.apply (dirLog (run env fs calls).2 ++ tableLog (run env fs calls).2) := by
    rw [hfinal, Builder.disk, Builder.disk, ← apply_append]
    rfl
  have hfinished := hrun.finished
  rw [← hdisk] at hfinished
  have hgood := hlaid.good
  have hboot := hfinished.boot
  have hmount := mount_eq hgood hboot
  have hdata : ∀ w ∈ files ++ dirLog (run env fs calls).2,
      fs.dataStart ≤ w.1 ∧ w.1 < fs.dataStart + fs.clusterCount * fs.spc := by
    intro w hw
    rcases List.mem_append.mp hw with hw | hw
    · exact hfiles w hw
    · have := mem_dirLog hrun w hw
      rwa [hgeo] at this
  refine ⟨volumeOf fs.toGeometry _, nodes, files, dirLog (run env fs calls).2, hmount, hcalls, hrets,
    ?_, hlog, by rw [hdirs, hlog], ?_⟩
  · intro copy hcopy
    have := hrun.holds hfinished hcopy hlab
    rwa [hgeo] at this
  · intro w hw
    have hroom := hgood.room
    have hstart : (volumeOf fs.toGeometry
        (fat32Finish env (run env fs calls).2).2.disk).dataStart = fs.dataStart :=
      hgood.dataStart.symm
    have := hdata w hw
    omega

/-! ## A small volume -/

def smallDisk : Disk 512 := ⟨66600, fun _ => Vector.replicate 512 0, by norm_num, le_rfl⟩

def steady : Env 512 := ⟨fun _ => none, fun _ => true⟩

def smallVolume : Builder 512 :=
  match fat32Create steady smallDisk none 0 0 with
  | .ok fs => fs
  | .error _ => blankBuilder smallDisk ⟨1, 66600, 513, 1058, 65542⟩

theorem smallVolume_created : fat32Create steady smallDisk none 0 0 = .ok smallVolume := by
  have hok : (fat32Create steady smallDisk none 0 0).isOk = true := by decide +kernel
  rw [smallVolume]
  split
  · assumption
  · rename_i heq
    rw [heq] at hok
    simp [Except.toBool] at hok

theorem build_holds_sample :
    Delivers steady smallVolume [.mkdir 2 [65], .addFile 10 [66] [1, 2, 3]] := by
  have hrets : (run steady smallVolume [.mkdir 2 [65], .addFile 10 [66] [1, 2, 3]]).1 = [10, 1] := by
    decide +kernel
  have hfinish : (fat32Finish steady
      (run steady smallVolume [.mkdir 2 [65], .addFile 10 [66] [1, 2, 3]]).2).1 = true := by
    decide +kernel
  refine build_holds steady smallDisk none 0 0 _ _ smallVolume_created (by rw [hrets]; decide)
    (by simp [Call.data]) hfinish ⟨⟨by decide, fun _ => ?_⟩, ⟨by decide, by simp [Call.isDir]⟩, trivial⟩
  decide

theorem mkdir_same (env : Env ss) (fs : Builder ss) (parent : ℕ) (name : List UInt8) :
    (fat32Mkdir env fs parent name).2.log = fs.log ∧ (fat32Mkdir env fs parent name).2.dev = fs.dev ∧
      (fat32Mkdir env fs parent name).2.toGeometry = fs.toGeometry := by
  have halloc : ∀ n, (allocClusters fs n).2.log = fs.log ∧ (allocClusters fs n).2.dev = fs.dev ∧
      (allocClusters fs n).2.toGeometry = fs.toGeometry := fun n => by
    rw [allocClusters]
    split_ifs <;> exact ⟨rfl, rfl, rfl⟩
  have hnew : (newDir env fs parent).2.log = fs.log ∧ (newDir env fs parent).2.dev = fs.dev ∧
      (newDir env fs parent).2.toGeometry = fs.toGeometry := by
    rw [newDir]
    dsimp only
    split_ifs
    · exact ⟨rfl, rfl, rfl⟩
    all_goals exact halloc _
  have hentry : ∀ (fs : Builder ss) dir e, (addEntry fs dir e).2.log = fs.log ∧
      (addEntry fs dir e).2.dev = fs.dev ∧ (addEntry fs dir e).2.toGeometry = fs.toGeometry :=
    fun fs dir e => by
      rw [addEntry]
      split
      · exact ⟨rfl, rfl, rfl⟩
      · split <;> exact ⟨rfl, rfl, rfl⟩
  have hboth := fun e => hentry (newDir env fs parent).2 parent e
  rw [hnew.1, hnew.2.1, hnew.2.2] at hboth
  rw [fat32Mkdir]
  dsimp only
  split_ifs
  · exact ⟨rfl, rfl, rfl⟩
  · exact hnew
  all_goals exact hboth _

/-- A directory that is its own parent is not found from the root. -/
theorem own_parent_lost :
    fat32Create steady smallDisk none 0 0 = .ok smallVolume ∧
      (run steady smallVolume [.mkdir 10 [65]]).1 = [10] ∧
      (fat32Finish steady (run steady smallVolume [.mkdir 10 [65]]).2).1 = true ∧
      ¬ Delivers steady smallVolume [.mkdir 10 [65]] := by
  have hfinish : (fat32Finish steady (run steady smallVolume [.mkdir 10 [65]]).2).1 = true := by
    decide +kernel
  refine ⟨smallVolume_created, by decide +kernel, hfinish, ?_⟩
  rintro ⟨v, nodes, files, dirs, hmount, hcalls, -, hholds, -⟩
  obtain ⟨-, hlaid⟩ := create_laid smallVolume_created
  obtain ⟨hlog, hdev, hgeo⟩ := mkdir_same steady smallVolume 10 [65]
  have hboot : (fat32Finish steady (run steady smallVolume [.mkdir 10 [65]]).2).2.disk.data 0 =
      smallVolume.disk.data 0 := by
    rw [(finish_true (.inl rfl) hfinish).2, disk_finished _ ?_]
    · show ((fat32Mkdir steady smallVolume 10 [65]).2.dev.apply _).data 0 = _
      show (smallVolume.dev.apply (fat32Mkdir steady smallVolume 10 [65]).2.log).data 0 = _
      rfl
    · show 0 < (fat32Mkdir steady smallVolume 10 [65]).2.dataStart
      rw [hgeo, hlaid.good.dataStart]
      omega
  rw [mount_eq hlaid.good (hboot.trans hlaid.boot)] at hmount
  obtain rfl := Option.some.inj hmount
  have hholds := hholds 0 two_pos
  obtain ⟨n, rfl, hn⟩ : ∃ n, nodes = [n] ∧ n.call = .mkdir 10 [65] := by
    rcases nodes with _ | ⟨n, _ | ⟨m, rest⟩⟩ <;> simp_all
  have hroot : ∀ c, (volumeOf smallVolume.toGeometry
      (fat32Finish steady (run steady smallVolume [.mkdir 10 [65]]).2).2.disk).Reached 0 c → c = 2 := by
    intro c hc
    induction hc with
    | root => rfl
    | child _ hes he _ ih =>
      subst ih
      have hentries := hholds.root_entries
      have hnone : entriesIn [n] 2 = [] := by simp [entriesIn, hn, Call.dir]
      rw [Volume.children, show (2 : ℕ) = (volumeOf smallVolume.toGeometry
        (fat32Finish steady (run steady smallVolume [.mkdir 10 [65]]).2).2.disk).root from rfl,
        hentries] at hes
      cases hes
      rw [show entriesIn [n] (volumeOf smallVolume.toGeometry _).root = [] from hnone] at he
      simp at he
  have hreached := hroot _ (hholds.placed n List.mem_cons_self)
  rw [hn] at hreached
  exact absurd hreached (by decide)

end MinimalOS.Fat32
