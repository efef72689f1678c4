import MinimalOS.Minimafs.Folder
import MinimalOS.Minimafs.Opened
import MinimalOS.Minimafs.Stored

/-!
# Finding a file in its directory

The walk from the root to a folder reads the blocks of directories only. It leads to the same
folder as long as those blocks name the same subdirectories, whatever happens to the rest of the
volume, and to the entries of the files in them.
-/

namespace MinimalOS.Minimafs

open CString Fs Function Option

variable {d d' : Drive} {env : Env} {path parent filename : List UInt8}

/-! ## The walk -/

def Drive.folderAt (d : Drive) (block : ℕ) : FolderDesc := parseFolderDesc block (d.disk block).bytes

def Drive.subfolder (d : Drive) (block : ℕ) (name : List UInt8) : Option ℕ :=
  ((d.folderAt block).entries.find? fun e => e.type = .dir ∧ e.name = name).map DirEntry.blockOffset

def Drive.walk (d : Drive) : List (List UInt8) → ℕ → Option ℕ
  | [], block => some block
  | name :: rest, block => (d.subfolder block name).bind (d.walk rest)

@[simp] theorem Drive.walk_later (d : Drive) (t : ℕ) (tokens : List (List UInt8)) (block : ℕ) :
    (d.later t).walk tokens block = d.walk tokens block := by
  induction tokens generalizing block with
  | nil => rfl
  | cons name rest ih =>
    exact congrArg _ (funext ih)

def Drive.folderBlock (d : Drive) (path : List UInt8) : Option ℕ :=
  if IsRootPath path then some d.storageDesc.rootBlock
  else d.walk (pathTokens path) d.storageDesc.rootBlock

/-- What `minimafs_read_folder_desc` makes of the folder in a block. -/
def Drive.folderOf (d : Drive) (path : List UInt8) (block : ℕ) : FolderDesc :=
  { d.folderAt block with
    path := if (d.folderAt block).path = [] then path.take (maxPath - 1)
      else (d.folderAt block).path }

theorem looks_readFolderDescBlock (hread : env.Reads) (block : ℕ) :
    Looks (readFolderDescBlock env block) d (d.folderAt block) :=
  (looks_readBlock hread block).bind fun _ => Looks.of_pure _

variable {tokens : List (List UInt8)} {block last i : ℕ} {entry : DirEntry}

theorem looks_walkFolders (hread : env.Reads) (hwalk : d.walk tokens block = some last) :
    Looks (walkFolders env tokens block) d last := by
  induction tokens generalizing block d with
  | nil =>
    cases hwalk
    exact .of_pure _
  | cons name rest ih =>
    rw [Drive.walk, bind_eq_some_iff] at hwalk
    obtain ⟨next, hnext, hwalk⟩ := hwalk
    obtain ⟨e, he, rfl⟩ := map_eq_some_iff.mp hnext
    refine (looks_readFolderDescBlock hread block).bind fun t => ?_
    rw [he]
    exact ih ((d.walk_later t _ _).trans hwalk)

theorem walk_of_walkFolders (hread : env.Reads)
    (hrun : walkFolders env tokens block d = (.ok last, d')) : d.walk tokens block = some last := by
  induction tokens generalizing block d with
  | nil =>
    cases hrun
    rfl
  | cons name rest ih =>
    obtain ⟨t, ht⟩ := looks_readFolderDescBlock hread block
    rw [walkFolders, bind_ok ht] at hrun
    rw [Drive.walk, bind_eq_some_iff]
    cases hfind : (d.folderAt block).entries.find? fun e => e.type = .dir ∧ e.name = name with
    | none =>
      rw [hfind] at hrun
      cases hrun
    | some e =>
      rw [hfind] at hrun
      refine ⟨e.blockOffset, ?_, (d.walk_later t _ _).symm.trans (ih hrun)⟩
      rw [Drive.subfolder, hfind]
      rfl

section Read

variable (hread : env.Reads)

include hread

variable {block : ℕ}

theorem looks_getFolderBlock (hheap : ∀ t, env.heap t = true) (h : d.folderBlock path = some block) :
    Looks (getFolderBlock env path) d block := by
  refine .bind ⟨d.moment, get_run⟩ fun t => ?_
  unfold Drive.folderBlock at h
  by_cases hroot : IsRootPath path
  · rw [if_pos hroot] at h ⊢
    cases h
    exact .of_pure _
  · rw [if_neg hroot] at h ⊢
    exact .bind ⟨_, request_run (hheap _)⟩ fun u =>
      looks_walkFolders hread (by simpa using h)

theorem folderBlock_of_getFolderBlock (hrun : getFolderBlock env path d = (.ok block, d')) :
    d.folderBlock path = some block := by
  unfold getFolderBlock at hrun
  rw [bind_ok get_run] at hrun
  unfold Drive.folderBlock
  by_cases hroot : IsRootPath path
  · rw [if_pos hroot] at hrun ⊢
    cases hrun
    rfl
  · rw [if_neg hroot] at hrun ⊢
    obtain ⟨_, t, -, hrun⟩ := quiet_request.bind_eq_ok hrun
    exact (d.walk_later t _ _).symm.trans (walk_of_walkFolders hread hrun)

theorem looks_readFolderDesc (hheap : ∀ t, env.heap t = true)
    (h : d.folderBlock path = some block) :
    Looks (readFolderDesc env path) d (d.folderOf path block) :=
  (looks_getFolderBlock hread hheap h).bind fun t =>
    (looks_readFolderDescBlock (d := d.later t) hread block).bind fun _ => Looks.of_pure _

theorem folder_of_readFolderDesc {desc : FolderDesc}
    (hrun : readFolderDesc env path d = (.ok desc, d')) :
    ∃ block, d.folderBlock path = some block ∧ desc = d.folderOf path block := by
  obtain ⟨block, t, hblock, hrun⟩ := (quiet_getFolderBlock path).bind_eq_ok hrun
  refine ⟨block, folderBlock_of_getFolderBlock hread hblock, ?_⟩
  obtain ⟨u, hu⟩ := looks_readFolderDescBlock hread block
  rw [bind_ok hu] at hrun
  cases hrun
  rfl

end Read

/-! ## The blocks of directories -/

/-- The blocks that directories are read from. -/
inductive Drive.DirBlock (d : Drive) : ℕ → Prop
  | root : d.DirBlock d.storageDesc.rootBlock
  | child {block : ℕ} {e : DirEntry} : d.DirBlock block → e ∈ (d.folderAt block).entries →
      e.type = .dir → d.DirBlock e.blockOffset

theorem Drive.DirBlock.subfolder {next : ℕ} {name : List UInt8} (hdir : d.DirBlock block)
    (h : d.subfolder block name = some next) : d.DirBlock next := by
  obtain ⟨e, he, rfl⟩ := map_eq_some_iff.mp h
  have htype : e.type = .dir ∧ e.name = name := by simpa using List.find?_some he
  exact hdir.child (List.mem_of_find?_eq_some he) htype.1

theorem Drive.DirBlock.walk (hdir : d.DirBlock block) (h : d.walk tokens block = some last) :
    d.DirBlock last := by
  induction tokens generalizing block with
  | nil => exact Option.some.inj h ▸ hdir
  | cons name rest ih =>
    obtain ⟨next, hnext, h⟩ := bind_eq_some_iff.mp h
    exact ih (hdir.subfolder hnext) h

theorem dirBlock_of_folderBlock (h : d.folderBlock path = some block) : d.DirBlock block := by
  unfold Drive.folderBlock at h
  split_ifs at h
  · exact Option.some.inj h ▸ Drive.DirBlock.root
  · exact Drive.DirBlock.root.walk h

/-- The directories of two drives name the same subdirectories. -/
structure Drive.SameTree (d d' : Drive) : Prop where
  root : d'.storageDesc.rootBlock = d.storageDesc.rootBlock
  subfolder : ∀ block, d.DirBlock block → ∀ name, d'.subfolder block name = d.subfolder block name

theorem Drive.SameTree.walk (h : d.SameTree d') (hdir : d.DirBlock block) :
    d'.walk tokens block = d.walk tokens block := by
  induction tokens generalizing block with
  | nil => rfl
  | cons name rest ih =>
    rw [Drive.walk, Drive.walk, h.subfolder block hdir]
    cases hnext : d.subfolder block name with
    | none => rfl
    | some next => exact ih (hdir.subfolder hnext)

theorem Drive.SameTree.folderBlock (h : d.SameTree d') (path : List UInt8) :
    d'.folderBlock path = d.folderBlock path := by
  unfold Drive.folderBlock
  rw [h.root, h.walk Drive.DirBlock.root]

theorem Drive.sameTree_of_disk (hroot : d'.storageDesc.rootBlock = d.storageDesc.rootBlock)
    (hdisk : ∀ block, d.DirBlock block → d'.disk block = d.disk block) : d.SameTree d' := by
  refine ⟨hroot, fun block hdir name => ?_⟩
  rw [Drive.subfolder, Drive.subfolder, Drive.folderAt, Drive.folderAt, hdisk block hdir]

/-! ## Entries -/

structure Found (d : Drive) (parent filename : List UInt8) (block i : ℕ) (entry : DirEntry) :
    Prop where
  folder : d.folderBlock parent = some block
  index : findEntryInFolder (d.folderAt block) filename = some i
  entry : (d.folderAt block).entries[i]? = some entry

theorem Found.looks (h : Found d parent filename block i entry) (hread : env.Reads)
    (hheap : ∀ t, env.heap t = true) : Looks (lookupEntry env parent filename) d (some entry) := by
  refine (looks_readFolderDesc hread hheap h.folder).bind fun t => ?_
  have hindex : findEntryInFolder (d.folderOf parent block) filename = some i := h.index
  have hentry : (d.folderOf parent block).entries[i]? = some entry := h.entry
  rw [hindex, bind_some, hentry]
  exact .of_pure _

theorem found_of_lookupEntry (hread : env.Reads)
    (hrun : lookupEntry env parent filename d = (.ok (some entry), d')) :
    ∃ block i, Found d parent filename block i entry := by
  obtain ⟨desc, t, hdesc, hrun⟩ := (quiet_readFolderDesc parent).bind_eq_ok hrun
  obtain ⟨block, hblock, rfl⟩ := folder_of_readFolderDesc hread hdesc
  cases hfind : findEntryInFolder (d.folderOf parent block) filename with
  | none =>
    rw [hfind] at hrun
    cases hrun
  | some i =>
    rw [hfind] at hrun
    have hentry : (d.folderOf parent block).entries[i]? = some entry := by
      injection hrun with h
      injection h
    exact ⟨block, i, hblock, hfind, hentry⟩

/-! ## Changing an entry -/

theorem parseFolderLine_blockOffset (desc : FolderDesc) (line : List UInt8) :
    (parseFolderLine desc line).blockOffset = desc.blockOffset := by
  unfold parseFolderLine
  split_ifs
  · rfl
  · split <;> rfl
  · rfl

theorem Drive.folderAt_blockOffset (d : Drive) (block : ℕ) :
    (d.folderAt block).blockOffset = block := by
  unfold Drive.folderAt parseFolderDesc
  generalize lineStarts (d.disk block).bytes = lines
  have hfold : ∀ desc : FolderDesc,
      (lines.foldl parseFolderLine desc).blockOffset = desc.blockOffset := by
    induction lines with
    | nil => exact fun _ => rfl
    | cons line lines ih =>
      intro desc
      rw [List.foldl_cons, ih, parseFolderLine_blockOffset]
  exact hfold _

theorem find?_modify {α : Type} {p : α → Bool} {f : α → α} {l : List α} {x : α}
    (hx : l[i]? = some x) (hp : p x = false) (hf : p (f x) = false) :
    (l.modify i f).find? p = l.find? p := by
  induction l generalizing i with
  | nil => cases hx
  | cons y l ih =>
    cases i with
    | zero =>
      cases hx
      rw [List.modify_zero_cons, List.find?_cons_of_neg (by simp [hf]),
        List.find?_cons_of_neg (by simp [hp])]
    | succ i =>
      rw [List.modify_succ_cons, List.find?_cons, List.find?_cons, ih hx]

theorem map_modify {α β : Type} {g : α → β} {f : α → α} (hf : ∀ x, g (f x) = g x) (l : List α)
    (i : ℕ) : (l.modify i f).map g = l.map g := by
  induction l generalizing i with
  | nil => simp
  | cons y l ih =>
    cases i with
    | zero => rw [List.modify_zero_cons, List.map_cons, List.map_cons, hf]
    | succ i => rw [List.modify_succ_cons, List.map_cons, List.map_cons, ih]

/-- The folder with one entry changed, as it is written. -/
def Drive.changedFolder (d : Drive) (parent : List UInt8) (block i : ℕ) (f : DirEntry → DirEntry) :
    FolderDesc :=
  { d.folderOf parent block with entries := (d.folderAt block).entries.modify i f }

def Drive.refolded (d : Drive) (block : ℕ) (text : List UInt8) : Drive :=
  { d with disk := Function.update d.disk block (Block.ofBytes text) }

theorem Drive.store_single (d : Drive) (block : ℕ) (b : Block) :
    d.store block [b] = { d with disk := Function.update d.disk block b } := by
  have hdisk : (d.store block [b]).disk = Function.update d.disk block b := by
    funext c
    show (if block ≤ c then ([b][c - block]?).getD (d.disk c) else d.disk c) = _
    by_cases hc : c = block
    · subst hc
      rw [if_pos le_rfl, Nat.sub_self, update_self]
      rfl
    · rw [update_of_ne hc]
      split_ifs
      · rw [List.getElem?_eq_none (by simp; omega)]
        rfl
      · rfl
  exact congrArg (fun disk => { d with disk := disk }) hdisk

section Change

variable {block i : ℕ} {entry : DirEntry} {f : DirEntry → DirEntry} {text : List UInt8}
  (hfound : Found d parent filename block i entry)
  (hprintable : (d.changedFolder parent block i f).Printable)
  (hprint : printFolderDesc (d.changedFolder parent block i f) = some text)

include hfound hprintable hprint

theorem updateEntry_run (henv : env.Ok) (hpos : block ≠ 0) (hlt : block < 2 ^ 32) :
    ∃ t, updateEntry env parent filename f d = (.ok ⟨⟩, (d.refolded block text).later t) := by
  obtain ⟨t, ht⟩ := looks_readFolderDesc henv.readOk henv.heap hfound.folder
  have hoffset : (d.changedFolder parent block i f).blockOffset = block := d.folderAt_blockOffset block
  obtain ⟨u, hu⟩ := writeBlocks_run henv.writeOk block [Block.ofBytes text]
    (by rw [List.length_singleton]; omega) (d.later t)
  refine ⟨u, ?_⟩
  unfold updateEntry
  rw [bind_ok ht, show findEntryInFolder (d.folderOf parent block) filename = some i from
    hfound.index]
  show writeFolderDesc env (d.changedFolder parent block i f) (d.later t) = _
  unfold writeFolderDesc
  rw [bind_ok (require_true ⟨by rw [hoffset]; exact hpos, hprintable.few⟩), hprint, hoffset]
  refine hu.trans ?_
  rw [Drive.store_single]
  rfl

omit hfound in
theorem folderAt_refolded :
    (d.refolded block text).folderAt block = d.changedFolder parent block i f := by
  have hdisk : (d.refolded block text).disk block = Block.ofBytes text := update_self _ _ _
  rw [Drive.folderAt, hdisk, parseFolderDesc_print hprintable hprint]
  have hoffset : (d.changedFolder parent block i f).blockOffset = block := d.folderAt_blockOffset block
  calc { d.changedFolder parent block i f with blockOffset := block }
      = { d.changedFolder parent block i f with
          blockOffset := (d.changedFolder parent block i f).blockOffset } := by rw [hoffset]
    _ = d.changedFolder parent block i f := rfl

variable (hname : ∀ e, (f e).name = e.name) (htype : ∀ e, (f e).type = e.type)
  (hfile : entry.type ≠ .dir)

include htype hfile

theorem sameTree_refolded : d.SameTree (d.refolded block text) := by
  refine ⟨rfl, fun b _ name => ?_⟩
  by_cases hb : b = block
  · subst hb
    unfold Drive.subfolder
    rw [folderAt_refolded hprintable hprint]
    refine congrArg _ (find?_modify hfound.entry ?_ ?_)
    · simp [hfile]
    · simp [htype, hfile]
  · have hdisk : (d.refolded block text).disk b = d.disk b := update_of_ne hb _ _
    rw [Drive.subfolder, Drive.subfolder, Drive.folderAt, Drive.folderAt, hdisk]

include hname

/-- **The changed entry is found** where the entry was. -/
theorem found_refolded : Found (d.refolded block text) parent filename block i (f entry) := by
  have hentries : ((d.refolded block text).folderAt block).entries =
      (d.folderAt block).entries.modify i f := by
    rw [folderAt_refolded hprintable hprint]
    rfl
  refine ⟨?_, ?_, ?_⟩
  · rw [(sameTree_refolded hfound hprintable hprint htype hfile).folderBlock, hfound.folder]
  · have hnames : ∀ es : List DirEntry, (es.findIdx? fun e => e.name = filename) =
        (es.map DirEntry.name).findIdx? (· = filename) := by
      intro es
      rw [List.findIdx?_map]
      rfl
    rw [← hfound.index, findEntryInFolder, findEntryInFolder, hentries, hnames, hnames,
      map_modify hname]
  · rw [hentries, List.getElem?_modify, hfound.entry]
    simp

end Change

end MinimalOS.Minimafs
