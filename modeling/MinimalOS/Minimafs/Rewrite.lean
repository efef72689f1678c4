import MinimalOS.Minimafs.Reopen

/-!
# Rewriting a file in place of the old one

A file is written to its old run or to a run of free blocks. On a volume whose books hold the
blocks of its directories, neither touches a directory, so the file is found where it was found
before and opens as what was written.
-/

namespace MinimalOS.Minimafs

open CString Fs

variable {d d' d₁ : Drive} {env : Env} {m : FileMetadata} {parent filename text : List UInt8}
  {block i start n : ℕ} {entry : DirEntry}

/-! ## The volume -/

/-- The directories of a volume lie outside the run of a file and outside every free run. -/
structure Drive.Tidy (d : Drive) (m : FileMetadata) : Prop extends d.InRange m where
  positive : ∀ b, d.DirBlock b → b ≠ 0
  range : ∀ b, d.DirBlock b → b < 2 ^ 32
  used : ∀ b, d.DirBlock b → Used d.alloc.ext b
  apart : ∀ b, d.DirBlock b → ¬ (m.blockOffset ≤ b ∧ b < m.blockOffset + m.blockCount)

theorem Drive.Tidy.outside (htidy : d.Tidy m) (hplaced : d.Placed m n start) {b : ℕ}
    (hdir : d.DirBlock b) : ¬ (start ≤ b ∧ b < start + n) := by
  rintro ⟨hge, hlt⟩
  rcases hplaced with ⟨-, hle, rfl⟩ | ⟨-, -, hfree⟩
  · exact htidy.apart b hdir ⟨hge, by omega⟩
  · exact hfree.2 b hge hlt (htidy.used b hdir)

theorem Drive.Tidy.disk (htidy : d.Tidy m) (hplaced : d.Placed m n start)
    (hwritten : Written d d' start n text) {b : ℕ} (hdir : d.DirBlock b) : d'.disk b = d.disk b :=
  hwritten.other b (htidy.positive b hdir) (htidy.outside hplaced hdir)

/-! ## The directory -/

theorem Found.dirBlock (hfound : Found d parent filename block i entry) : d.DirBlock block :=
  dirBlock_of_folderBlock hfound.folder

theorem Found.of_disk (hfound : Found d parent filename block i entry)
    (hroot : d'.storageDesc.rootBlock = d.storageDesc.rootBlock)
    (hdisk : ∀ b, d.DirBlock b → d'.disk b = d.disk b) :
    Found d' parent filename block i entry := by
  have hfolder : d'.folderAt block = d.folderAt block := by
    rw [Drive.folderAt, Drive.folderAt, hdisk block hfound.dirBlock]
  refine ⟨?_, ?_, ?_⟩
  · rw [(Drive.sameTree_of_disk hroot hdisk).folderBlock, hfound.folder]
  · rw [hfolder, hfound.index]
  · rw [hfolder, hfound.entry]

/-- The folder of a file with its entry changed can be written and read again. -/
def Drive.Changeable (d : Drive) (parent : List UInt8) (block i : ℕ) (f : DirEntry → DirEntry) :
    Prop :=
  (d.changedFolder parent block i f).Printable ∧
    (printFolderDesc (d.changedFolder parent block i f)).isSome

theorem Written.later {t : ℕ} (h : Written d d' start n text) :
    Written d (d'.later t) start n text :=
  ⟨⟨h.kept.mounted, h.kept.rootBlock⟩, h.positive, h.blocks, h.run, h.other⟩

/-- **The entry of a file that was written** is changed and found, and the file is where it was
written to. -/
theorem updateEntry_written (henv : env.Ok) (htidy : d.Tidy m) (hplaced : d.Placed m n start)
    (hwritten : Written d d₁ start n text) (hfound : Found d parent filename block i entry)
    (hfile : entry.type ≠ .dir) {f : DirEntry → DirEntry} (hname : ∀ e, (f e).name = e.name)
    (htype : ∀ e, (f e).type = e.type) (hfolder : d.Changeable parent block i f) :
    ∃ d₂, updateEntry env parent filename f d₁ = (.ok ⟨⟩, d₂) ∧ d₂.mounted = d.mounted ∧
      Found d₂ parent filename block i (f entry) ∧
      ∀ j < n, (d₂.disk (start + j)).bytes = Blocks.window 0 text blockSize (j * blockSize) := by
  have hdir := hfound.dirBlock
  have hfound₁ : Found d₁ parent filename block i entry :=
    hfound.of_disk hwritten.kept.rootBlock fun b hb => htidy.disk hplaced hwritten hb
  have hsame : d₁.changedFolder parent block i f = d.changedFolder parent block i f := by
    unfold Drive.changedFolder Drive.folderOf Drive.folderAt
    rw [htidy.disk hplaced hwritten hdir]
  obtain ⟨hprintable, hprint⟩ := hfolder
  obtain ⟨out, hout⟩ := Option.isSome_iff_exists.mp hprint
  rw [← hsame] at hprintable hout
  obtain ⟨t, ht⟩ := updateEntry_run hfound₁ hprintable hout henv (htidy.positive block hdir)
    (htidy.range block hdir)
  refine ⟨_, ht, hwritten.kept.mounted,
    (found_refolded hfound₁ hprintable hout hname htype hfile).later t, fun j hj => ?_⟩
  have hne : start + j ≠ block := fun he => htidy.outside hplaced hdir (by omega)
  have hdisk : (d₁.refolded block out).disk (start + j) = d₁.disk (start + j) :=
    Function.update_of_ne hne _ _
  rw [Drive.later_disk, hdisk]
  exact hwritten.run j hj

/-! ## The file -/

/-- There is room for a file, and it can be read back. -/
structure Storable (env : Env) (d : Drive) (m : FileMetadata) (data : List UInt8) : Prop where
  size : (writtenHeader m data.length).length + data.length + 5 + blockSize ≤ 2 ^ 32
  room : d.Room m (writtenBlocks m data.length)
  legible : Legible env (segmentsMetadata m data.length 0) data

variable {data : List UInt8}

theorem holdsText_written
    (hsize : (writtenHeader m data.length).length + data.length + 5 + blockSize ≤ 2 ^ 32)
    (hblocks : start + writtenBlocks m data.length ≤ 2 ^ 32)
    (hrun : ∀ j < writtenBlocks m data.length, (d'.disk (start + j)).bytes =
      Blocks.window 0 (fileText (writtenHeader m data.length) data) blockSize (j * blockSize)) :
    d'.HoldsText start (writtenBlocks m data.length)
      (fileText (generateFileHeader (segmentsMetadata m data.length 0)) data) := by
  have hsize : (writtenHeader m data.length).length + data.length + 5 + 4096 ≤ 2 ^ 32 := hsize
  refine ⟨hblocks, ?_, ?_, hrun⟩
  · show writtenBlocks m data.length * 4096 < 2 ^ 32
    rw [writtenBlocks]
    omega
  · rw [length_fileText]
    show (writtenHeader m data.length).length + data.length + 5 ≤
      writtenBlocks m data.length * 4096
    rw [writtenBlocks]
    omega

theorem writeFileToDisk_sized (henv : env.Ok) {s : Segment} (hs : s.Ok) (htidy : d.Tidy m)
    (hsize : (writtenHeader m s.content.length).length + s.content.length + 5 + blockSize ≤ 2 ^ 32)
    (hroom : d.Room m (writtenBlocks m s.content.length)) (t : ℕ) :
    ∃ start d', writeFileToDisk env m s (d.later t) = (.ok { segmentsMetadata m s.len 0 with
        blockOffset := start, blockCount := writtenBlocks m s.len }, d') ∧
      d.Placed m (writtenBlocks m s.len) start ∧
      Written d d' start (writtenBlocks m s.len) (fileText (writtenHeader m s.len) s.content) := by
  rw [hs.length] at hsize hroom
  obtain ⟨start, d', hrun, hplaced, hwritten⟩ := writeFileToDisk_run (d := d.later t) henv hs
    ⟨htidy.ordered, htidy.total, htidy.old⟩ hsize hroom
  exact ⟨start, d', hrun, hplaced, ⟨hwritten.kept.mounted, hwritten.kept.rootBlock⟩,
    hwritten.positive, hwritten.blocks, hwritten.run, hwritten.other⟩

/-- The entry of a file that `minimafs_close` has written back. -/
def moved (start n : ℕ) (hidden : Bool) (e : DirEntry) : DirEntry :=
  { e with blockOffset := start, blockCount := n, hidden := hidden }

/-- **Writing back.** The file is found where it was found, and holds what the handle held. -/
theorem writeBack_run (henv : env.Ok) {h : FileHandle} {s : Segment}
    (hseg : s = ⟨h.data, h.dataSize⟩) (hs : s.Ok) (htidy : d.Tidy h.metadata)
    (hfound : Found d (splitLocalPath h.path).1 (splitLocalPath h.path).2 block i entry)
    (hfile : entry.type ≠ .dir) (hst : Storable env d h.metadata s.content)
    (hfolder : ∀ start, d.Placed h.metadata (writtenBlocks h.metadata s.len) start →
      d.Changeable (splitLocalPath h.path).1 block i
        (moved start (writtenBlocks h.metadata s.len) h.metadata.hidden)) (t : ℕ) :
    ∃ d' entry', writeBack env h (d.later t) = (.ok ⟨⟩, d') ∧ d'.mounted = d.mounted ∧
      Found d' (splitLocalPath h.path).1 (splitLocalPath h.path).2 block i entry' ∧
      entry'.type ≠ .dir ∧ d'.HoldsText entry'.blockOffset entry'.blockCount
        (fileText (generateFileHeader (segmentsMetadata h.metadata s.content.length 0))
          s.content) := by
  obtain ⟨t₁, h₁⟩ := looks_request henv
  obtain ⟨start, d₁, hrun, hplaced, hwritten⟩ := writeFileToDisk_sized henv hs htidy hst.size
    hst.room t₁
  obtain ⟨t₂, h₂⟩ := looks_request henv
  obtain ⟨t₃, h₃⟩ := looks_request henv
  obtain ⟨t₄, h₄⟩ := looks_request henv
  obtain ⟨d₂, hupdate, hmounted, hfound₂, htext⟩ := updateEntry_written henv htidy hplaced
    (hwritten.later) hfound hfile (f := moved start (writtenBlocks h.metadata s.len)
      h.metadata.hidden) (fun _ => rfl) (fun _ => rfl) (hfolder start hplaced)
  have hlen := hs.length
  refine ⟨d₂, _, ?_, hmounted, hfound₂, hfile, ?_⟩
  · unfold writeBack
    rw [bind_ok h₁, ← hseg, Drive.later_later, bind_ok hrun]
    dsimp only
    rw [bind_ok h₂, bind_ok h₃, Drive.later_later, bind_ok h₄]
    exact hupdate
  · show d₂.HoldsText start (writtenBlocks h.metadata s.len) _
    rw [← hlen] at htext ⊢
    exact holdsText_written hst.size (hlen ▸ hwritten.blocks) htext

end MinimalOS.Minimafs
