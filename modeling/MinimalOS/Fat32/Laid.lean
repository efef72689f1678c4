import MinimalOS.Fat32.Geometry
import MinimalOS.Fat32.Volume

/-!
# What the builder keeps true

Each call that succeeds adds one node. Clusters are handed out in order, so a node's run lies
behind those of the nodes before it, and nothing that is written or linked later touches it.
`Laid` states this together with what the directories in memory look like; `step_laid` is what one
call does to it and `run_laid` what a sequence of calls does.
-/

namespace MinimalOS.Fat32

open Packed MinimalOS.Partition

variable {ss : ℕ}

/-! ## Runs of clusters -/

/-- The FAT chains a run of clusters and ends it. -/
def Linked (fat : ℕ → UInt32) (first n : ℕ) : Prop :=
  ∀ i < n, fat (first + i) = if i + 1 < n then UInt32.ofNat (first + i + 1) else eoc

theorem link_apply (fat : ℕ → UInt32) (first n c : ℕ) :
    link fat first n c = if first ≤ c ∧ c < first + n then
      if c + 1 < first + n then UInt32.ofNat (c + 1) else eoc else fat c := by
  have hfold : ∀ m, ((List.range m).foldl (fun fat i => Function.update fat (first + i)
      (if i + 1 < n then UInt32.ofNat (first + i + 1) else eoc)) fat) c =
      if first ≤ c ∧ c < first + m then
        if c + 1 < first + n then UInt32.ofNat (c + 1) else eoc else fat c := by
    intro m
    induction m with
    | zero => rw [if_neg (by omega)]; rfl
    | succ m ih =>
      rw [List.range_succ, List.foldl_append, List.foldl_cons, List.foldl_nil]
      rcases eq_or_ne c (first + m) with rfl | hne
      · rw [Function.update_self, if_pos (by omega : first ≤ first + m ∧ first + m < first + (m + 1))]
        simp only [add_assoc, add_lt_add_iff_left]
      · rw [Function.update_of_ne hne, ih]
        exact if_congr (by omega) rfl rfl
  exact hfold n

theorem linked_link (fat : ℕ → UInt32) (first n : ℕ) : Linked (link fat first n) first n := by
  intro i hi
  rw [link_apply, if_pos (by omega)]
  simp only [add_assoc, add_lt_add_iff_left]

theorem Linked.link {fat : ℕ → UInt32} {first n : ℕ} (h : Linked fat first n) {first' : ℕ} (n' : ℕ)
    (hle : first + n ≤ first') : Linked (link fat first' n') first n := by
  intro i hi
  rw [link_apply, if_neg (by omega), h i hi]

def Builder.took (fs : Builder ss) (n : ℕ) : Builder ss :=
  { fs with fat := link fs.fat fs.nextCluster n, nextCluster := fs.nextCluster + n }

variable {fs : Builder ss} {dirs : List Dir}

theorem allocClusters_ok {n : ℕ} (hn : n < 2 ^ 31) (hcount : fs.clusterCount ≤ 2 ^ 22)
    (hnext : fs.nextCluster ≤ fs.clusterCount + 2) (h : (allocClusters fs n).1 ≠ 0) :
    0 < n ∧ fs.nextCluster + n ≤ fs.clusterCount + 2 ∧
      allocClusters fs n = (fs.nextCluster, fs.took n) := by
  rw [allocClusters] at h ⊢
  split at h
  · exact absurd rfl h
  rename_i hpos
  rw [Nat.mod_eq_of_lt (by omega), Nat.mod_eq_of_lt (by omega)] at h ⊢
  split at h
  · exact absurd rfl h
  rename_i hroom
  rw [if_neg hpos, if_neg hroom]
  exact ⟨by omega, by omega, rfl⟩

/-! ## Directories in memory -/

/-- Entries are added to the directory with this handle. -/
def pushAt (dir : ℕ) (e : Dirent) (d : Dir) : Dir := if d.firstCluster = dir then d.push e else d

variable {dir parent c : ℕ} {env : Env ss} {n : Node} {name data : List UInt8} {w : Log ss}

theorem modify_findIdx {i : ℕ} (e : Dirent) (hnodup : (dirs.map Dir.firstCluster).Nodup)
    (h : dirs.findIdx? (fun d => d.firstCluster = dir) = some i) :
    dirs.modify i (Dir.push e) = dirs.map (pushAt dir e) := by
  induction dirs generalizing i with
  | nil => simp at h
  | cons d dirs ih =>
    obtain ⟨hnot, hnodup⟩ := List.nodup_cons.mp hnodup
    rw [List.findIdx?_cons] at h
    split at h
    · rename_i hd
      cases h
      have hd : d.firstCluster = dir := by simpa using hd
      have hrest : dirs.map (pushAt dir e) = dirs := by
        refine (List.map_congr_left fun x hx => ?_).trans (List.map_id _)
        rw [pushAt, if_neg (fun heq => hnot (List.mem_map.mpr ⟨x, hx, heq.trans hd.symm⟩)), id]
      rw [List.modify_zero_cons, List.map_cons, hrest, pushAt, if_pos hd]
    · rename_i hd
      obtain ⟨j, hj, rfl⟩ := Option.map_eq_some_iff.mp h
      have hd : d.firstCluster ≠ dir := by simpa using hd
      rw [List.modify_succ_cons, ih hnodup hj, List.map_cons, pushAt, if_neg hd]

theorem addEntry_ok {e : Dirent} (hnodup : (fs.dirs.map Dir.firstCluster).Nodup)
    (h : (addEntry fs dir e).1 = true) :
    (∃ d ∈ fs.dirs, d.firstCluster = dir ∧ d.entries.length < d.capacity) ∧
      addEntry fs dir e = (true, { fs with dirs := fs.dirs.map (pushAt dir e) }) := by
  rw [addEntry] at h ⊢
  split at h
  · simp at h
  rename_i i hi
  split at h
  · simp at h
  rename_i hroom
  rw [if_neg hroom, modify_findIdx e hnodup hi]
  obtain ⟨hlt, hdir, -⟩ := List.findIdx?_eq_some_iff_getElem.mp hi
  refine ⟨⟨fs.dirs[i], List.getElem_mem hlt, by simpa using hdir, ?_⟩, rfl⟩
  simpa [List.getElem?_eq_getElem hlt] using hroom

def capacity (clusterBytes : ℕ) : ℕ := dirClusters clusterBytes * clusterBytes / direntBytes

theorem dirClusters_pos (clusterBytes : ℕ) : 0 < dirClusters clusterBytes := by
  unfold dirClusters
  split
  · exact one_pos
  · rename_i h
    exact Nat.pos_of_ne_zero h

theorem dirClusters_le (clusterBytes : ℕ) : dirClusters clusterBytes ≤ 4096 := by
  unfold dirClusters
  have := Nat.div_le_self 4096 clusterBytes
  split <;> omega

def dirWith (clusterBytes first : ℕ) (entries : List Dirent) : Dir :=
  ⟨first, dirClusters clusterBytes, capacity clusterBytes, entries⟩

@[simp]
theorem dirWith_firstCluster (clusterBytes first : ℕ) (entries : List Dirent) :
    (dirWith clusterBytes first entries).firstCluster = first := rfl

/-- The builder after a directory was made, whose entry is still missing. -/
def Builder.madeDir (fs : Builder ss) (parent : ℕ) : Builder ss :=
  { fs.took (dirClusters (fs.clusterBytes ss)) with
    dirs := fs.dirs ++ [dirWith (fs.clusterBytes ss) fs.nextCluster
      (if parent = noParent then [] else [dotEntry fs.nextCluster, dotdotEntry parent])] }

theorem newDir_ok (hcount : fs.clusterCount ≤ 2 ^ 22) (hnext : fs.nextCluster ≤ fs.clusterCount + 2)
    (h : (newDir env fs parent).1 ≠ 0) :
    fs.nextCluster + dirClusters (fs.clusterBytes ss) ≤ fs.clusterCount + 2 ∧
      newDir env fs parent = (fs.nextCluster, fs.madeDir parent) := by
  have hsmall := dirClusters_le (fs.clusterBytes ss)
  rw [newDir] at h ⊢
  split at h
  · exact absurd rfl h
  rename_i hdirs
  rw [if_neg hdirs]
  dsimp only at h
  split at h
  · exact absurd rfl h
  rename_i hfirst
  obtain ⟨-, hroom, ha⟩ := allocClusters_ok (by omega) hcount hnext hfirst
  rw [if_neg hfirst]
  split at h
  · exact absurd rfl h
  rename_i hgranted
  rw [if_neg hgranted, ha]
  exact ⟨hroom, rfl⟩

/-- The directories among some nodes, with the entries that `all` nodes give them. -/
def dirsFor (lab : Vector UInt8 11) (clusterBytes : ℕ) (all nodes : List Node) : List Dir :=
  dirWith clusterBytes 2 (entryWith lab 0x08 0 0 :: entriesIn all 2) ::
    (nodes.filter fun n => n.call.isDir).map fun n => dirWith clusterBytes n.first
      (dotEntry n.first :: dotdotEntry n.call.dir :: entriesIn all n.first)

theorem entriesIn_append (nodes : List Node) (n : Node) (dir : ℕ) :
    entriesIn (nodes ++ [n]) dir =
      entriesIn nodes dir ++ if n.call.dir = dir then [n.entry] else [] := by
  simp only [entriesIn, List.filter_append]
  split <;> simp_all

theorem dirsFor_push (lab : Vector UInt8 11) (clusterBytes : ℕ) (all nodes : List Node) (n : Node) :
    (dirsFor lab clusterBytes all nodes).map (pushAt n.call.dir n.entry) =
      dirsFor lab clusterBytes (all ++ [n]) nodes := by
  have hpush : ∀ first lead, pushAt n.call.dir n.entry
      (dirWith clusterBytes first (lead ++ entriesIn all first)) =
        dirWith clusterBytes first (lead ++ entriesIn (all ++ [n]) first) := fun first lead => by
    rw [entriesIn_append, pushAt, dirWith_firstCluster]
    rcases eq_or_ne first n.call.dir with h | h
    · rw [if_pos h, if_pos h.symm, ← List.append_assoc]
      rfl
    · rw [if_neg h, if_neg h.symm, List.append_nil]
  rw [dirsFor, List.map_cons, List.map_map]
  refine congrArg₂ _ (hpush 2 [_]) (List.map_congr_left fun m _ => ?_)
  exact hpush m.first [_, _]

theorem dirsFor_snoc (lab : Vector UInt8 11) (clusterBytes : ℕ) (all nodes : List Node) (n : Node) :
    dirsFor lab clusterBytes all (nodes ++ [n]) = dirsFor lab clusterBytes all nodes ++
      if n.call.isDir then [dirWith clusterBytes n.first
        (dotEntry n.first :: dotdotEntry n.call.dir :: entriesIn all n.first)] else [] := by
  simp only [dirsFor, List.filter_append, List.cons_append]
  split <;> simp_all

theorem room_push (e : Dirent) (hnodup : (dirs.map Dir.firstCluster).Nodup)
    (hroom : ∀ d ∈ dirs, d.entries.length ≤ d.capacity)
    (hfound : ∃ d ∈ dirs, d.firstCluster = dir ∧ d.entries.length < d.capacity) :
    ∀ d ∈ dirs.map (pushAt dir e), d.entries.length ≤ d.capacity := by
  obtain ⟨d₀, hd₀, hfirst, hlt⟩ := hfound
  intro d' hd'
  obtain ⟨d, hd, rfl⟩ := List.mem_map.mp hd'
  rw [pushAt]
  split
  · rename_i heq
    obtain rfl := List.inj_on_of_nodup_map hnodup hd hd₀ (heq.trans hfirst.symm)
    rw [Dir.push, List.length_append]
    exact hlt
  · exact hroom d hd

/-! ## The invariant -/

def IsHandle (nodes : List Node) (c : ℕ) : Prop :=
  c = 2 ∨ ∃ n ∈ nodes, n.call.isDir = true ∧ n.first = c

def Node.Sized (clusterBytes : ℕ) (n : Node) : Prop :=
  if n.call.isDir then n.clusters = dirClusters clusterBytes
  else n.call.data.length ≤ 2 ^ 32 - 32768 ∧
    n.clusters = (n.call.data.length + clusterBytes - 1) / clusterBytes ∧
      (n.clusters = 0 → n.first = 0)

def Builder.disk (fs : Builder ss) : Disk ss := fs.dev.apply fs.log

/-- The file of a node is on a disk. -/
def Stored (g : Geometry) (d : Disk ss) (n : Node) : Prop :=
  n.call.isDir = false → ∀ i < (n.call.data.length + ss - 1) / ss,
    d.data (clusterLba g n.first + i) = sectorOf n.call.data i

structure Laid (lab : Vector UInt8 11) (boot : List UInt8) (fs : Builder ss) (nodes : List Node) :
    Prop where
  good : fs.toGeometry.Good ss fs.dev.sectors
  ok : fs.failed = false
  next_ge : 2 + dirClusters (fs.clusterBytes ss) ≤ fs.nextCluster
  next_le : fs.nextCluster ≤ fs.clusterCount + 2
  /-- the run of the root comes first -/
  rootLinked : Linked fs.fat 2 (dirClusters (fs.clusterBytes ss))
  linked : ∀ n ∈ nodes, Linked fs.fat n.first n.clusters
  inside : ∀ n ∈ nodes, n.clusters ≠ 0 →
    2 + dirClusters (fs.clusterBytes ss) ≤ n.first ∧ n.first + n.clusters ≤ fs.nextCluster
  ordered : nodes.Pairwise fun a b => a.clusters ≠ 0 → b.clusters ≠ 0 →
    a.first + a.clusters ≤ b.first
  sized : ∀ n ∈ nodes, n.Sized (fs.clusterBytes ss)
  dirs : fs.dirs = dirsFor lab (fs.clusterBytes ss) nodes nodes
  room : ∀ d ∈ fs.dirs, d.entries.length ≤ d.capacity
  /-- a node is in an older directory -/
  parents : ∀ before n behind, nodes = before ++ n :: behind → IsHandle before n.call.dir
  /-- no entry is marked as free -/
  names : ∀ n ∈ nodes, n.call.name.head? ≠ some 0xE5
  stored : ∀ n ∈ nodes, Stored fs.toGeometry fs.disk n
  boot : fs.disk.data 0 = sectorOf boot 0

section Invariant

variable {lab : Vector UInt8 11} {boot : List UInt8} {fs : Builder ss} {nodes : List Node}

theorem Laid.isDir_clusters (h : Laid lab boot fs nodes) (hn : n ∈ nodes)
    (hdir : n.call.isDir = true) : n.clusters = dirClusters (fs.clusterBytes ss) := by
  have := h.sized n hn
  rwa [Node.Sized, if_pos hdir] at this

theorem Laid.handle_lt (h : Laid lab boot fs nodes) (hc : IsHandle nodes c) :
    2 ≤ c ∧ c < fs.nextCluster := by
  have hpos := dirClusters_pos (fs.clusterBytes ss)
  have hnext := h.next_ge
  rcases hc with rfl | ⟨n, hn, hdir, rfl⟩
  · omega
  · have hclusters := h.isDir_clusters hn hdir
    have hin := h.inside n hn (by omega)
    omega

theorem Laid.dir_lt (h : Laid lab boot fs nodes) (hn : n ∈ nodes) :
    n.call.dir < fs.nextCluster := by
  obtain ⟨before, behind, heq⟩ := List.append_of_mem hn
  refine (h.handle_lt ?_).2
  rcases h.parents before n behind heq with h2 | ⟨m, hm, hdir⟩
  · exact Or.inl h2
  · exact Or.inr ⟨m, heq ▸ List.mem_append_left _ hm, hdir⟩

theorem firsts_dirsFor (lab : Vector UInt8 11) (clusterBytes : ℕ) (all nodes : List Node) :
    (dirsFor lab clusterBytes all nodes).map Dir.firstCluster =
      2 :: (nodes.filter fun n => n.call.isDir).map Node.first := by
  rw [dirsFor, List.map_cons, List.map_map]
  rfl

theorem Laid.isHandle_iff (h : Laid lab boot fs nodes) :
    IsHandle nodes c ↔ ∃ d ∈ fs.dirs, d.firstCluster = c := by
  rw [← List.mem_map, h.dirs, firsts_dirsFor, List.mem_cons, List.mem_map, IsHandle]
  simp only [List.mem_filter, and_assoc]

theorem Laid.nodup (h : Laid lab boot fs nodes) : (fs.dirs.map Dir.firstCluster).Nodup := by
  have hpos := dirClusters_pos (fs.clusterBytes ss)
  rw [h.dirs, firsts_dirsFor, List.nodup_cons]
  constructor
  · intro hmem
    obtain ⟨n, hn, h2⟩ := List.mem_map.mp hmem
    obtain ⟨hn, hdir⟩ := List.mem_filter.mp hn
    have hclusters := h.isDir_clusters hn hdir
    have hin := h.inside n hn (by omega)
    omega
  · refine List.pairwise_map.mpr (((h.ordered.filter _).imp_of_mem ?_))
    intro a b ha hb hab heq
    obtain ⟨ha, hadir⟩ := List.mem_filter.mp ha
    obtain ⟨hb, hbdir⟩ := List.mem_filter.mp hb
    have hac := h.isDir_clusters ha hadir
    have hbc := h.isDir_clusters hb hbdir
    omega

theorem clusterLba_le (g : Geometry) {c' : ℕ} (h : c ≤ c') : clusterLba g c ≤ clusterLba g c' :=
  Nat.add_le_add_left (Nat.mul_le_mul_right _ (Nat.sub_le_sub_right h 2)) _

theorem clusterLba_add (g : Geometry) (n : ℕ) (hc : 2 ≤ c) :
    clusterLba g (c + n) = clusterLba g c + n * g.spc := by
  rw [clusterLba, clusterLba, Nat.sub_add_comm hc, add_mul, add_assoc]

theorem sectors_le {len spc clusters : ℕ} (hss : 0 < ss) (hspc : 0 < spc)
    (h : clusters = (len + spc * ss - 1) / (spc * ss)) : (len + ss - 1) / ss ≤ clusters * spc := by
  have hbytes : 0 < spc * ss := Nat.mul_pos hspc hss
  have hlen : len ≤ clusters * (spc * ss) := by
    have := Nat.lt_div_mul_add hbytes (a := len + spc * ss - 1)
    rw [← h] at this
    omega
  rw [← mul_assoc] at hlen
  refine Nat.le_of_lt_succ ((Nat.div_lt_iff_lt_mul hss).mpr ?_)
  rw [Nat.succ_mul]
  omega

theorem Laid.file_clusters (h : Laid lab boot fs nodes) (hn : n ∈ nodes)
    (hfile : n.call.isDir = false) {i : ℕ} (hi : i < (n.call.data.length + ss - 1) / ss) :
    n.clusters ≠ 0 ∧ i < n.clusters * fs.spc := by
  have hsized := h.sized n hn
  rw [Node.Sized, if_neg (by simp [hfile])] at hsized
  have hsectors := sectors_le (by have := h.good.sectorSize; omega) h.good.spc_pos hsized.2.1
  refine ⟨fun h0 => ?_, by omega⟩
  rw [h0] at hsectors
  omega

theorem Laid.stored_apply (h : Laid lab boot fs nodes)
    (hw : ∀ x ∈ w, clusterLba fs.toGeometry fs.nextCluster ≤ x.1) (hn : n ∈ nodes) :
    Stored fs.toGeometry (fs.disk.apply w) n := by
  intro hfile i hi
  refine (apply_data_of_notMem _ fun x hx => ?_).trans (h.stored n hn hfile i hi)
  obtain ⟨h0, hsector⟩ := h.file_clusters hn hfile hi
  obtain ⟨hfirst, hlast⟩ := h.inside n hn h0
  have hend := clusterLba_add fs.toGeometry n.clusters (by omega : 2 ≤ n.first)
  have hbound := clusterLba_le fs.toGeometry hlast
  have := hw x hx
  omega

def Builder.added (fs : Builder ss) (lab : Vector UInt8 11) (nodes : List Node) (n : Node)
    (w : Log ss) : Builder ss :=
  { fs.took n.clusters with
    dirs := dirsFor lab (fs.clusterBytes ss) (nodes ++ [n]) (nodes ++ [n])
    log := fs.log ++ w }

theorem disk_added (fs : Builder ss) (n : Node) (w : Log ss) :
    (fs.added lab nodes n w).disk = fs.disk.apply w := by
  rw [Builder.disk, Builder.disk, ← apply_append]
  rfl

/-- What has to be known of a new node. -/
structure Fresh (fs : Builder ss) (nodes : List Node) (n : Node) (w : Log ss) : Prop where
  run : n.clusters ≠ 0 →
    n.first = fs.nextCluster ∧ fs.nextCluster + n.clusters ≤ fs.clusterCount + 2
  sized : n.Sized (fs.clusterBytes ss)
  parent : IsHandle nodes n.call.dir
  name : n.call.name.head? ≠ some 0xE5
  /-- what is written goes to new clusters -/
  writes : ∀ x ∈ w, clusterLba fs.toGeometry fs.nextCluster ≤ x.1
  stored : Stored fs.toGeometry (fs.disk.apply w) n

theorem Laid.add (h : Laid lab boot fs nodes) (hn : Fresh fs nodes n w)
    (hroom : ∀ d ∈ dirsFor lab (fs.clusterBytes ss) (nodes ++ [n]) (nodes ++ [n]),
      d.entries.length ≤ d.capacity) :
    Laid lab boot (fs.added lab nodes n w) (nodes ++ [n]) where
  good := h.good
  ok := h.ok
  next_ge := h.next_ge.trans (Nat.le_add_right _ _)
  next_le := by
    show fs.nextCluster + n.clusters ≤ fs.clusterCount + 2
    have := h.next_le
    rcases eq_or_ne n.clusters 0 with h0 | h0
    · omega
    · exact (hn.run h0).2
  rootLinked := h.rootLinked.link _ h.next_ge
  linked := by
    intro m hm
    rcases List.mem_append.mp hm with hm | hm
    · rcases eq_or_ne m.clusters 0 with h0 | h0
      · exact fun i hi => absurd hi (by omega)
      · exact (h.linked m hm).link _ (h.inside m hm h0).2
    · obtain rfl := List.mem_singleton.mp hm
      rcases eq_or_ne m.clusters 0 with h0 | h0
      · exact fun i hi => absurd hi (by omega)
      · rw [(hn.run h0).1]
        exact linked_link _ _ _
  inside := by
    intro m hm h0
    show _ ∧ _ ≤ fs.nextCluster + n.clusters
    rcases List.mem_append.mp hm with hm | hm
    · have := h.inside m hm h0
      exact ⟨this.1, by omega⟩
    · obtain rfl := List.mem_singleton.mp hm
      rw [(hn.run h0).1]
      exact ⟨h.next_ge, le_rfl⟩
  ordered := by
    refine List.pairwise_append.mpr ⟨h.ordered, List.pairwise_singleton _ _, ?_⟩
    intro a ha b hb ha0 hb0
    obtain rfl := List.mem_singleton.mp hb
    rw [(hn.run hb0).1]
    exact (h.inside a ha ha0).2
  sized := by
    intro m hm
    rcases List.mem_append.mp hm with hm | hm
    · exact h.sized m hm
    · obtain rfl := List.mem_singleton.mp hm
      exact hn.sized
  dirs := rfl
  room := hroom
  parents := by
    intro before m behind heq
    rcases List.eq_nil_or_concat behind with rfl | ⟨behind, b, rfl⟩
    · obtain ⟨rfl, hm⟩ := List.append_inj' heq rfl
      obtain rfl := List.singleton_inj.mp hm
      exact hn.parent
    · rw [List.concat_eq_append, ← List.cons_append, ← List.append_assoc] at heq
      exact h.parents before m behind (List.append_inj' heq rfl).1
  names := by
    intro m hm
    rcases List.mem_append.mp hm with hm | hm
    · exact h.names m hm
    · obtain rfl := List.mem_singleton.mp hm
      exact hn.name
  stored := by
    intro m hm
    rw [disk_added]
    rcases List.mem_append.mp hm with hm | hm
    · exact h.stored_apply hn.writes hm
    · obtain rfl := List.mem_singleton.mp hm
      exact hn.stored
  boot := by
    rw [disk_added]
    refine (apply_data_of_notMem _ fun x hx => ?_).trans h.boot
    have := hn.writes x hx
    have := h.good.dataStart
    unfold clusterLba at *
    omega

theorem addEntry_added {fs' : Builder ss}
    (hdirs : fs'.dirs = dirsFor lab (fs.clusterBytes ss) nodes (nodes ++ [n]))
    (hfs' : { fs.took n.clusters with dirs := fs'.dirs, log := fs.log ++ w } = fs')
    (hnodup : (fs'.dirs.map Dir.firstCluster).Nodup)
    (hroom : ∀ d ∈ fs'.dirs, d.entries.length ≤ d.capacity)
    (h : (addEntry fs' n.call.dir n.entry).1 = true) :
    addEntry fs' n.call.dir n.entry = (true, fs.added lab nodes n w) ∧
      ∀ d ∈ dirsFor lab (fs.clusterBytes ss) (nodes ++ [n]) (nodes ++ [n]),
        d.entries.length ≤ d.capacity := by
  obtain ⟨hfound, hadd⟩ := addEntry_ok hnodup h
  have hpush := dirsFor_push lab (fs.clusterBytes ss) nodes (nodes ++ [n]) n
  rw [← hdirs] at hpush
  refine ⟨?_, ?_⟩
  · rw [hadd, hpush, ← hfs']
    rfl
  · rw [← hpush]
    exact room_push _ hnodup hroom hfound

theorem two_le_capacity {clusterBytes : ℕ} (h : 512 ≤ clusterBytes) : 2 ≤ capacity clusterBytes := by
  have := Nat.mul_le_mul (dirClusters_pos clusterBytes) h
  unfold capacity direntBytes
  omega

theorem firsts_madeDir (fs : Builder ss) (parent : ℕ) :
    (fs.madeDir parent).dirs.map Dir.firstCluster =
      fs.dirs.map Dir.firstCluster ++ [fs.nextCluster] := by
  rw [Builder.madeDir, List.map_append]
  rfl

theorem Laid.nodup_madeDir (h : Laid lab boot fs nodes) (parent : ℕ) :
    ((fs.madeDir parent).dirs.map Dir.firstCluster).Nodup := by
  rw [firsts_madeDir, List.nodup_append]
  refine ⟨h.nodup, List.nodup_singleton _, ?_⟩
  intro a ha b hb
  have hlt := (h.handle_lt (h.isHandle_iff.mpr (List.mem_map.mp ha))).2
  rw [List.mem_singleton.mp hb]
  exact hlt.ne

def Builder.dirNode (fs : Builder ss) (parent : ℕ) (name : List UInt8) : Node :=
  ⟨.mkdir parent name, fs.nextCluster, dirClusters (fs.clusterBytes ss)⟩

theorem Laid.dirs_madeDir (h : Laid lab boot fs nodes) (name : List UInt8)
    (hparent : parent ≠ noParent) : (fs.madeDir parent).dirs =
      dirsFor lab (fs.clusterBytes ss) nodes (nodes ++ [fs.dirNode parent name]) := by
  have hempty : entriesIn nodes fs.nextCluster = [] := by
    rw [entriesIn, List.map_eq_nil_iff, List.filter_eq_nil_iff]
    intro m hm
    have := h.dir_lt hm
    simp only [decide_eq_true_eq]
    omega
  rw [dirsFor_snoc, ← h.dirs, Builder.madeDir, if_neg hparent]
  show _ = fs.dirs ++ [dirWith _ _ (_ :: _ :: entriesIn nodes fs.nextCluster)]
  rw [hempty]
  rfl

theorem Laid.room_madeDir (h : Laid lab boot fs nodes) (parent : ℕ) :
    ∀ d ∈ (fs.madeDir parent).dirs, d.entries.length ≤ d.capacity := by
  intro d hd
  rcases List.mem_append.mp hd with hd | hd
  · exact h.room d hd
  · obtain rfl := List.mem_singleton.mp hd
    have hcap : 2 ≤ (capacity (fs.clusterBytes ss)) := two_le_capacity h.good.clusterBytes_ge
    show List.length (if _ then _ else _) ≤ capacity (fs.clusterBytes ss)
    split
    · exact Nat.zero_le _
    · exact hcap

theorem mkdir_laid (h : Laid lab boot fs nodes) (hname : name.head? ≠ some 0xE5)
    (hparent : parent ≠ fs.nextCluster) (hok : (fat32Mkdir env fs parent name).1 ≠ 0) :
    fat32Mkdir env fs parent name =
        (fs.nextCluster, fs.added lab nodes (fs.dirNode parent name) []) ∧
      Laid lab boot (fs.added lab nodes (fs.dirNode parent name) [])
        (nodes ++ [fs.dirNode parent name]) := by
  rw [fat32Mkdir, if_neg (by simp [h.ok])] at hok ⊢
  dsimp only at hok
  split at hok
  · exact absurd rfl hok
  rename_i hdir
  obtain ⟨hclusters, hnew⟩ := newDir_ok h.good.few h.next_le hdir
  rw [if_neg hdir]
  rw [hnew] at hok ⊢
  split at hok
  · exact absurd rfl hok
  rename_i hentry
  rw [if_neg hentry]
  have hentry : (addEntry (fs.madeDir parent) parent (fs.dirNode parent name).entry).1 = true :=
    Bool.of_not_eq_false hentry
  -- the parent was there before, as it is not the new directory
  have hhandle : IsHandle nodes parent := by
    obtain ⟨⟨d, hd, hfirst, -⟩, -⟩ := addEntry_ok (h.nodup_madeDir parent) hentry
    have hmem := List.mem_map.mpr ⟨d, hd, hfirst⟩
    rw [firsts_madeDir, List.mem_append, List.mem_singleton] at hmem
    exact h.isHandle_iff.mpr (List.mem_map.mp (hmem.resolve_right hparent))
  have hnone : parent ≠ noParent := by
    have := h.handle_lt hhandle
    have := h.good.few
    unfold noParent
    omega
  obtain ⟨hadd, hroom⟩ := addEntry_added
    (h.dirs_madeDir name hnone) (by rw [List.append_nil]; rfl) (h.nodup_madeDir parent)
    (h.room_madeDir parent) hentry
  refine ⟨congrArg _ (congrArg Prod.snd hadd), h.add ?_ hroom⟩
  exact {
    run := fun _ => ⟨rfl, hclusters⟩
    sized := rfl
    parent := hhandle
    name := hname
    writes := by simp
    stored := fun hfile => by simp [Builder.dirNode, Call.isDir] at hfile }

def Builder.fileNode (fs : Builder ss) (dir : ℕ) (name data : List UInt8) : Node :=
  let clusters := (data.length + fs.clusterBytes ss - 1) / fs.clusterBytes ss
  ⟨.addFile dir name data, if clusters = 0 then 0 else fs.nextCluster, clusters⟩

def InData (g : Geometry) (w : Log ss) : Prop :=
  ∀ x ∈ w, g.dataStart ≤ x.1 ∧ x.1 < g.dataStart + g.clusterCount * g.spc

theorem Laid.alloc_fileNode (h : Laid lab boot fs nodes) (hsize : data.length ≤ 2 ^ 32 - 32768)
    (hok : ¬ ((fs.fileNode dir name data).clusters ≠ 0 ∧
      (allocClusters fs (fs.fileNode dir name data).clusters).1 = 0)) :
    allocClusters fs (fs.fileNode dir name data).clusters =
        ((fs.fileNode dir name data).first, fs.took (fs.fileNode dir name data).clusters) ∧
      ((fs.fileNode dir name data).clusters ≠ 0 →
        (fs.fileNode dir name data).first = fs.nextCluster ∧
          fs.nextCluster + (fs.fileNode dir name data).clusters ≤ fs.clusterCount + 2) := by
  have hfirst : (fs.fileNode dir name data).first =
      if (fs.fileNode dir name data).clusters = 0 then 0 else fs.nextCluster := rfl
  have hfew : (fs.fileNode dir name data).clusters ≤ 2 ^ 32 / 512 := by
    have hle := h.good.clusterBytes_le
    exact Nat.div_le_div (by show data.length + fs.spc * ss - 1 ≤ 2 ^ 32; omega)
      h.good.clusterBytes_ge (by norm_num)
  rw [hfirst]
  generalize (fs.fileNode dir name data).clusters = clusters at *
  rcases Nat.eq_zero_or_pos clusters with rfl | hpos
  · exact ⟨rfl, fun h0 => absurd rfl h0⟩
  · obtain ⟨-, hroom, ha⟩ := allocClusters_ok (by omega) h.good.few h.next_le
      (fun h0 => hok ⟨hpos.ne', h0⟩)
    rw [if_neg hpos.ne']
    exact ⟨ha, fun _ => ⟨rfl, hroom⟩⟩

section

variable (h : Laid lab boot fs nodes) (hname : name.head? ≠ some 0xE5)
  (hsize : data.length ≤ 2 ^ 32 - 32768)

include h hname hsize

/-- The sectors of a new file: they are in its clusters, and there is nothing to write for an empty
file. -/
theorem Laid.fresh_file (hparent : IsHandle nodes dir)
    (hrun : (fs.fileNode dir name data).clusters ≠ 0 →
      (fs.fileNode dir name data).first = fs.nextCluster ∧
        fs.nextCluster + (fs.fileNode dir name data).clusters ≤ fs.clusterCount + 2)
    {lba : ℕ}
    (hlba : (if (fs.fileNode dir name data).first = 0 then 0
      else clusterLba fs.toGeometry (fs.fileNode dir name data).first) = lba) :
    InData fs.toGeometry (transfer lba ((data.length + ss - 1) / ss) data : Log ss) ∧
      Fresh fs nodes (fs.fileNode dir name data)
        (transfer lba ((data.length + ss - 1) / ss) data) := by
  have hsectors : (data.length + ss - 1) / ss ≤ (fs.fileNode dir name data).clusters * fs.spc :=
    sectors_le (by have := h.good.sectorSize; omega) h.good.spc_pos rfl
  have hnext := h.next_ge
  have hstart : 0 < (data.length + ss - 1) / ss → (fs.fileNode dir name data).clusters ≠ 0 ∧
      lba = clusterLba fs.toGeometry (fs.fileNode dir name data).first := by
    intro hpos
    have h0 : (fs.fileNode dir name data).clusters ≠ 0 := by
      intro h0
      rw [h0] at hsectors
      omega
    rw [if_neg (by rw [(hrun h0).1]; omega)] at hlba
    exact ⟨h0, hlba.symm⟩
  refine ⟨fun x hx => ?_, ?_⟩
  · obtain ⟨hge, hlt⟩ := mem_transfer hx
    obtain ⟨h0, rfl⟩ := hstart (by omega)
    obtain ⟨hfirst, hlast⟩ := hrun h0
    have hend := clusterLba_add fs.toGeometry (fs.fileNode dir name data).clusters
      (by omega : 2 ≤ fs.nextCluster)
    have hbound := clusterLba_le fs.toGeometry hlast
    rw [hfirst] at hlt
    unfold clusterLba at *
    rw [Nat.add_sub_cancel] at hbound
    omega
  · exact {
      run := hrun
      sized := ⟨hsize, rfl, fun h0 => if_pos h0⟩
      parent := hparent
      name := hname
      writes := fun x hx => by
        obtain ⟨hge, hlt⟩ := mem_transfer hx
        obtain ⟨h0, rfl⟩ := hstart (by omega)
        rwa [(hrun h0).1] at hge
      stored := fun _ i hi => by
        obtain ⟨-, hlba'⟩ := hstart (by have : i < (data.length + ss - 1) / ss := hi; omega)
        rw [← hlba']
        exact apply_transfer _ lba data hi }

theorem addFile_laid (hok : (fat32AddFile env fs dir name data).1 = true) :
    ∃ w : Log ss, InData fs.toGeometry w ∧
      fat32AddFile env fs dir name data =
        (true, fs.added lab nodes (fs.fileNode dir name data) w) ∧
      Laid lab boot (fs.added lab nodes (fs.fileNode dir name data) w)
        (nodes ++ [fs.fileNode dir name data]) := by
  have hle := h.good.clusterBytes_le
  have hwrap : (data.length + fs.clusterBytes ss - 1) % 2 ^ 32 / fs.clusterBytes ss =
      (fs.fileNode dir name data).clusters := by
    rw [Nat.mod_eq_of_lt (by show data.length + fs.spc * ss - 1 < 2 ^ 32; omega)]
    rfl
  rw [fat32AddFile, if_neg (by simp [h.ok])] at hok ⊢
  rw [hwrap] at hok ⊢
  dsimp only at hok ⊢
  split at hok
  · simp_all
  rename_i halloc
  rw [if_neg halloc]
  obtain ⟨ha, hrun⟩ := h.alloc_fileNode hsize halloc
  rw [ha] at hok ⊢
  generalize hlba : (if (fs.fileNode dir name data).first = 0 then 0
    else clusterLba fs.toGeometry (fs.fileNode dir name data).first) = lba at hok
  obtain ⟨hwrite, heq, hentry⟩ := of_unless_failed (Or.inr rfl) hok
  rw [writeData_true h.good.sectorSize le_rfl hwrite] at hentry ⊢
  generalize hw : (transfer lba ((data.length + ss - 1) / ss) data : Log ss) = w at hentry
  have hdirs : ((fs.took (fs.fileNode dir name data).clusters).wrote w).dirs =
      dirsFor lab (fs.clusterBytes ss) nodes (nodes ++ [fs.fileNode dir name data]) := by
    rw [dirsFor_snoc, ← h.dirs]
    exact (List.append_nil _).symm
  have hnodup : (((fs.took (fs.fileNode dir name data).clusters).wrote w).dirs.map
      Dir.firstCluster).Nodup := h.nodup
  have hparent : IsHandle nodes dir := by
    obtain ⟨⟨d, hd, hfirst, -⟩, -⟩ := addEntry_ok hnodup hentry
    exact h.isHandle_iff.mpr ⟨d, hd, hfirst⟩
  obtain ⟨hdata, hfresh⟩ := h.fresh_file hname hsize hparent hrun hlba
  rw [hw] at hdata hfresh
  obtain ⟨hadd, hroom⟩ := addEntry_added hdirs rfl hnodup h.room hentry
  exact ⟨w, hdata, hadd, h.add hfresh hroom⟩

end

/-! ## Runs -/

/-- What a call must not do: mark its entry as free, or name as parent of a new directory the
cluster that this directory is about to get. -/
def Usable (fs : Builder ss) (call : Call) : Prop :=
  call.name.head? ≠ some 0xE5 ∧ (call.isDir = true → call.dir ≠ fs.nextCluster)

theorem step_laid (h : Laid lab boot fs nodes) {call : Call} (husable : Usable fs call)
    (hsize : call.data.length ≤ 2 ^ 32 - 32768) (hok : (step env fs call).1 ≠ 0) :
    ∃ (n : Node) (w : Log ss), n.call = call ∧
      (call.isDir = true → n.first = (step env fs call).1) ∧ InData fs.toGeometry w ∧
      (step env fs call).2 = fs.added lab nodes n w ∧
      Laid lab boot (step env fs call).2 (nodes ++ [n]) := by
  cases call with
  | mkdir parent name =>
    obtain ⟨heq, hlaid⟩ := mkdir_laid h husable.1 (husable.2 rfl) hok
    refine ⟨fs.dirNode parent name, [], rfl, fun _ => ?_, by simp [InData], ?_, ?_⟩
    · exact (congrArg Prod.fst heq).symm
    · exact congrArg Prod.snd heq
    · exact congrArg Prod.snd heq ▸ hlaid
  | addFile dir name data =>
    have hok : (fat32AddFile env fs dir name data).1 = true := by
      cases hb : (fat32AddFile env fs dir name data).1 with
      | false => exact absurd (by simp [step, hb]) hok
      | true => rfl
    obtain ⟨w, hdata, heq, hlaid⟩ := addFile_laid h husable.1 hsize hok
    refine ⟨fs.fileNode dir name data, w, rfl, fun hdir => by simp [Call.isDir] at hdir, hdata, ?_, ?_⟩
    · exact congrArg Prod.snd heq
    · exact congrArg Prod.snd heq ▸ hlaid

end Invariant

def AllUsable (env : Env ss) : Builder ss → List Call → Prop
  | _, [] => True
  | fs, c :: cs => Usable fs c ∧ AllUsable env (step env fs c).2 cs

def Returned (n : Node) (ret : ℕ) : Prop := n.call.isDir = true → n.first = ret

/-- A sequence of calls that succeed adds a node for each of them and writes to the data area. -/
theorem run_laid {lab : Vector UInt8 11} {boot : List UInt8} (calls : List Call) {nodes : List Node}
    (h : Laid lab boot fs nodes) (husable : AllUsable env fs calls)
    (hsize : ∀ c ∈ calls, c.data.length ≤ 2 ^ 32 - 32768)
    (hok : ∀ r ∈ (run env fs calls).1, r ≠ 0) :
    ∃ (more : List Node) (w : Log ss), more.map Node.call = calls ∧
      List.Forall₂ Returned more (run env fs calls).1 ∧ InData fs.toGeometry w ∧
      (run env fs calls).2.toGeometry = fs.toGeometry ∧
      (run env fs calls).2.log = fs.log ++ w ∧
      Laid lab boot (run env fs calls).2 (nodes ++ more) := by
  induction calls generalizing fs nodes with
  | nil => exact ⟨[], [], rfl, .nil, by simp [InData], rfl, by simp [run], by simpa [run] using h⟩
  | cons c cs ih =>
    rw [run] at ⊢
    obtain ⟨n, w, hcall, hret, hdata, heq, hlaid⟩ := step_laid h husable.1
      (hsize c List.mem_cons_self) (hok _ List.mem_cons_self)
    obtain ⟨more, w', hcalls, hrets, hdata', hgeo, hlog, hlaid'⟩ := ih hlaid husable.2
      (fun c' hc' => hsize c' (List.mem_cons_of_mem _ hc'))
      (fun r hr => hok r (List.mem_cons_of_mem _ hr))
    have hgeo' : (step env fs c).2.toGeometry = fs.toGeometry := by rw [heq]; rfl
    have hlog' : (step env fs c).2.log = fs.log ++ w := by rw [heq]; rfl
    refine ⟨n :: more, w ++ w', ?_, .cons ?_ hrets, ?_, hgeo.trans hgeo', ?_, ?_⟩
    · rw [List.map_cons, hcall, hcalls]
    · exact fun hdir => hret (hcall ▸ hdir)
    · intro x hx
      rcases List.mem_append.mp hx with hx | hx
      · exact hdata x hx
      · exact hgeo' ▸ hdata' x hx
    · rw [hlog, hlog', List.append_assoc]
    · rw [List.append_assoc] at hlaid'
      exact hlaid'

end MinimalOS.Fat32
