import MinimalOS.Minimafs.WriteRead

/-!
# Changing the metadata of a file

`minimafs_set_metadata` writes the file again with other settings and takes only the hidden flag
over to the directory. The entry there still names the old run, so the file has to need as many
blocks as before; the data that are written again are those in memory, and a handle that reads its
blocks on demand has none. The new texts go into the header as they are, so they have to be ones
that the parser gives back.
-/

namespace MinimalOS.Minimafs

open CString Fs

variable {d d' d₁ : Drive} {env : Env} {h : FileHandle} {path c : List UInt8} {new : FileMetadata}
  {entry : DirEntry} {block i : ℕ}

/-! ## Settings -/

structure Settings where
  filetype : List UInt8
  fileformat : List UInt8
  runnable : Bool
  entrypoint : ℕ
  runWith : List UInt8
  hidden : Bool
  deriving DecidableEq

def FileMetadata.settings (m : FileMetadata) : Settings :=
  ⟨m.filetype, m.fileformat, m.runnable, m.entrypoint, m.runWith, m.hidden⟩

/-- Open a file and read its settings and the whole of its data. -/
def readAll (env : Env) (path : List UInt8) : Fs (Settings × List UInt8) := do
  let h ← openFile env path true
  let (bytes, _) ← readFile env h h.dataSize
  pure (h.metadata.settings, bytes)

/-- The values are ones that the fields of the structure can hold. -/
structure FileMetadata.Held (m : FileMetadata) : Prop where
  filetype : strncpy 64 m.filetype = m.filetype
  fileformat : strncpy 16 m.fileformat = m.fileformat
  runWith : strncpy maxPath m.runWith = m.runWith
  entrypoint : m.entrypoint < 2 ^ 64

theorem noZero_of_strncpy {n : ℕ} {s : List UInt8} (h : strncpy n s = s) : (0 : UInt8) ∉ s := by
  intro hzero
  rw [← h] at hzero
  have := List.mem_takeWhile_imp (List.mem_of_mem_take hzero)
  simp at this

theorem FileMetadata.Held.noZero (h : new.Held) : ∀ s ∈ new.bare, (0 : UInt8) ∉ s := by
  simp only [FileMetadata.bare, List.forall_mem_cons]
  exact ⟨noZero_of_strncpy h.filetype, noZero_of_strncpy h.fileformat,
    noZero_of_strncpy h.runWith, by simp⟩

theorem settings_updated (hnew : new.Held) (old : FileMetadata) (date : List UInt8) :
    (old.updated new date).settings = new.settings := by
  show (⟨strncpy 64 new.filetype, strncpy 16 new.fileformat, new.runnable, new.entrypoint,
    strncpy maxPath new.runWith, new.hidden⟩ : Settings) = _
  rw [hnew.filetype, hnew.fileformat, hnew.runWith]
  rfl

theorem settings_segmentsMetadata (m : FileMetadata) (len : ℕ) :
    (segmentsMetadata m len 0).settings = m.settings := by
  rw [segmentsMetadata, settleHeader_eq]
  rfl

theorem settings_extract (text : List UInt8) (entry : DirEntry) (n : ℕ) :
    (extract text entry n).metadata.settings = ((parseFileHeader text).getD {}).settings := rfl

theorem settings_placed (m : FileMetadata) (offset count : ℕ) :
    { m with blockOffset := offset, blockCount := count }.settings = m.settings := rfl

/-- A file that is not runnable keeps neither an entry point nor a runner. -/
abbrev Settings.Consistent (s : Settings) : Prop :=
  s.runnable = true ∨ s.entrypoint = 0 ∧ s.runWith = []

variable {m : FileMetadata}

theorem bare_eq_of_settings {m' : FileMetadata} (h : m.settings = m'.settings) : m.bare = m'.bare :=
  congrArg (fun s : Settings => [s.filetype, s.fileformat, s.runWith]) h

/-- **The settings are read back** exactly if they are consistent and their texts are bare. -/
theorem settings_parsed_iff {tail : List UInt8} (hzero : ∀ s ∈ m.bare, (0 : UInt8) ∉ s)
    (hquoted : ∀ s ∈ m.quoted, IsLine s ∧ (39 : UInt8) ∉ s) (hfits : m.Fits)
    (hclear : ∀ T ∈ headerTags, Clear T m tail) :
    (parsed m tail).settings = m.settings ↔ m.settings.Consistent ∧ ∀ s ∈ m.bare, Bare s := by
  have hread : (∀ s ∈ m.bare, Bare s) →
      ((parsed m tail).settings = m.settings ↔ m.settings.Consistent) := by
    intro hb
    rw [parsed_eq ⟨fun s hs => ⟨hzero s hs, (hb s hs).noAt⟩, hquoted⟩ hfits hb hclear]
    unfold FileMetadata.settings
    rw [Settings.mk.injEq]
    cases m.runnable with
    | true => simp [Settings.Consistent]
    | false => simp [Settings.Consistent, eq_comm]
  constructor
  · intro h
    have hb := bare_of_parsed hzero (fun s hs => (hquoted s hs).1) hclear (bare_eq_of_settings h)
    exact ⟨(hread hb).mp h, hb⟩
  · rintro ⟨hconsistent, hb⟩
    exact (hread hb).mpr hconsistent

/-! ## The run -/

/-- The metadata that are written: the clock is read behind two requests. -/
def newMetadata (env : Env) (h : FileHandle) (new : FileMetadata) (d : Drive) : FileMetadata :=
  h.metadata.updated new (getDatetime (env.clock (d.moment + 2)))

theorem rewriteFile_eq (henv : env.Ok) (h : FileHandle) (new : FileMetadata)
    (hmounted : d.mounted = true) :
    rewriteFile env h new d = writeFileToDisk env (newMetadata env h new d) ⟨h.data, h.dataSize⟩
      (d.later (d.moment + 3)) := by
  unfold rewriteFile
  rw [bind_ok (request_run (henv.heap _)), bind_ok (request_run (henv.heap _)), bind_ok now_run,
    bind_ok get_run]
  exact bind_ok (require_true hmounted)

/-- The entry of a file whose flag was set. -/
def hide (hidden : Bool) (e : DirEntry) : DirEntry := { e with hidden := hidden }

/-- What a header and the data behind it have to keep clear of, whatever its settings are. -/
structure Reopens (env : Env) (m : FileMetadata) (data : List UInt8) : Prop where
  quoted : ∀ s ∈ m.quoted, IsLine s ∧ (39 : UInt8) ∉ s
  fits : m.Fits
  header : (generateFileHeader m).length ≤ blockSize
  clear : ∀ t, ∀ T ∈ headerTags, Clear T m (behind (generateFileHeader m) data (env.beyond t))

/-- The file can be written again with other settings. -/
structure CanRewrite (env : Env) (d : Drive) (path : List UInt8) (m : FileMetadata) (s : Segment) :
    Prop where
  tidy : d.Tidy m
  size : (writtenHeader m s.content.length).length + s.content.length + 5 + blockSize ≤ 2 ^ 32
  room : d.Room m (writtenBlocks m s.content.length)
  reopens : Reopens env (segmentsMetadata m s.content.length 0) s.content
  folder : ∀ block i entry,
    Found d (splitLocalPath path).1 (splitLocalPath path).2 block i entry →
    d.Changeable (splitLocalPath path).1 block i (hide m.hidden)

theorem Found.unique {parent filename : List UInt8} {block' i' : ℕ} {entry' : DirEntry}
    (h : Found d parent filename block i entry) (h' : Found d parent filename block' i' entry') :
    entry' = entry := by
  obtain rfl : block = block' := Option.some.inj (h.folder.symm.trans h'.folder)
  obtain rfl : i = i' := Option.some.inj (h.index.symm.trans h'.index)
  exact Option.some.inj (h'.entry.symm.trans h.entry)

/-- **Setting the metadata.** The file is written to a run, and its entry gets the flag. -/
theorem setMetadata_run (henv : env.Ok) {s : Segment}
    (hopen : openFile env path false d = (.ok h, d₁)) (hmounted : d₁.mounted = true)
    (hpath : h.path = path) (hmodified : h.modified = false) (hm : m = newMetadata env h new d₁)
    (hseg : s = ⟨h.data, h.dataSize⟩) (hs : s.Ok) (hcan : CanRewrite env d₁ path m s)
    (hfound : Found d₁ (splitLocalPath path).1 (splitLocalPath path).2 block i entry)
    (hfile : entry.type ≠ .dir) :
    ∃ start d₂ d', rewriteFile env h new d₁ = (.ok { segmentsMetadata m s.len 0 with
        blockOffset := start, blockCount := writtenBlocks m s.len }, d₂) ∧
      setMetadata env path new d = (.ok ⟨⟩, d') ∧ d'.mounted = true ∧
      d₁.Placed m (writtenBlocks m s.len) start ∧
      Found d' (splitLocalPath path).1 (splitLocalPath path).2 block i (hide m.hidden entry) ∧
      d'.HoldsText start (writtenBlocks m s.len) (fileText (writtenHeader m s.len) s.content) := by
  obtain ⟨start, d₂, hwrite, hplaced, hwritten⟩ := writeFileToDisk_sized henv hs hcan.tidy
    hcan.size hcan.room (d₁.moment + 3)
  have hrewrite := rewriteFile_eq henv h new hmounted
  rw [← hm, ← hseg, hwrite] at hrewrite
  obtain ⟨t₁, h₁⟩ := looks_request (d := d₂) henv
  obtain ⟨t₂, h₂⟩ := looks_request (d := d₂.later t₁) henv
  obtain ⟨t₃, h₃⟩ := looks_request (d := d₂.later t₂) henv
  obtain ⟨d', hupdate, hmounted', hfound', hrun⟩ := updateEntry_written henv hcan.tidy hplaced
    (hwritten.later (t := t₃)) hfound hfile (f := hide m.hidden) (fun _ => rfl)
    (fun _ => rfl) (hcan.folder block i entry hfound)
  have hhidden : m.hidden = new.hidden := by
    rw [hm]
    rfl
  have htext : d'.HoldsText start (writtenBlocks m s.len)
      (fileText (writtenHeader m s.len) s.content) := by
    have hblocks := hwritten.blocks
    rw [← hs.length] at hrun hblocks ⊢
    exact holdsText_written hcan.size hblocks hrun
  refine ⟨start, d₂, d', hrewrite, ?_, hmounted'.trans hmounted, hplaced, hfound', htext⟩
  have hflag : updateHidden env path new.hidden d₂ = (.ok ⟨⟩, d') := by
    unfold updateHidden
    rw [bind_ok h₁, bind_ok h₂, Drive.later_later]
    dsimp only
    rw [bind_ok h₃, Drive.later_later, ← hhidden]
    exact hupdate
  have hclose : closeFile env h d' = (.ok ⟨⟩, d') := by
    unfold closeFile
    rw [bind_ok get_run, hmodified, if_neg (by simp)]
    rfl
  have hbody : (do
      let _ ← rewriteFile env h new
      let _ ← attempt (updateHidden env h.path new.hidden) : Fs Unit) d₁ = (.ok ⟨⟩, d') := by
    rw [bind_ok hrewrite, hpath, bind_ok (attempt_ok hflag)]
    rfl
  unfold setMetadata
  rw [bind_ok hopen, bind_ok (attempt_ok hbody), bind_ok hclose]
  exact require_true rfl

/-! ## Opening it again -/

structure StoredFile (d : Drive) (path : List UInt8) (entry : DirEntry) : Prop where
  found : ∃ block i, Found d (splitLocalPath path).1 (splitLocalPath path).2 block i entry
  offset : entry.blockOffset ≠ 0
  count : 0 < entry.blockCount
  size : entry.blockCount * blockSize < 2 ^ 32

theorem StoredFile.opened {readOnly : Bool} (henv : env.Ok) (hstored : StoredFile d path entry)
    (hopen : openFile env path readOnly d = (.ok h, d₁)) :
    ∃ t s x, d₁ = d.later t ∧ d.mounted = true ∧ entry.type ≠ .dir ∧
      Opened d₁ path readOnly entry x h ∧ x = extract ((d.disk entry.blockOffset).bytes ++
        env.beyond s) entry (entry.blockCount * blockSize) := by
  have hmounted : d.mounted = true := openFile_mounted (congrArg Prod.fst hopen)
  obtain ⟨block, i, hfound⟩ := hstored.found
  obtain ⟨t₁, h₁⟩ := looks_request (d := d) henv
  obtain ⟨t₂, h₂⟩ := (hfound.later t₁).looks henv.readOk henv.heap
  unfold openFile at hopen
  rw [bind_ok get_run, bind_ok (require_true hmounted)] at hopen
  dsimp only at hopen
  rw [bind_ok h₁, bind_ok h₂, Drive.later_later] at hopen
  have hopen : openEntry env path readOnly entry (d.later t₂) = (.ok h, d₁) := hopen
  obtain ⟨hfile, -⟩ := openEntry_streaming henv hopen
  obtain ⟨x, hopened, htext⟩ := openEntry_opened henv.readOk hopen
  rw [u32_eq_self hstored.size] at htext
  obtain ⟨s, hx⟩ := htext (Nat.mul_ne_zero hstored.count.ne' (by decide))
  obtain ⟨t, rfl⟩ := (quiet_openEntry _ _ _).later hopen
  exact ⟨t, s, x, rfl, hmounted, hfile, hopened.of_later.later t, hx⟩

theorem readAll_run (henv : env.Ok) {data : List UInt8} (hzero : ∀ s ∈ m.bare, (0 : UInt8) ∉ s)
    (hm : Reopens env m data) (hlen : m.dataLength = data.length)
    (hempty : m.fileLength ≤ (generateFileHeader m).length + data.length + 5)
    (hmounted : d.mounted = true) (hstored : StoredFile d path entry) (hfile : entry.type ≠ .dir)
    (htext : d.HoldsText entry.blockOffset entry.blockCount
      (fileText (generateFileHeader m) data)) :
    (readAll env path d).1 = .ok (m.settings, c) ↔
      (m.settings.Consistent ∧ ∀ s ∈ m.bare, Bare s) ∧ data = c := by
  have hparsed := fun t => settings_parsed_iff hzero hm.quoted hm.fits (hm.clear t)
  by_cases hb : ∀ s ∈ m.bare, Bare s
  · have hprint : m.Printable := ⟨fun s hs => ⟨hzero s hs, (hb s hs).noAt⟩, hm.quoted⟩
    have hst : Legible env m data := by
      refine ⟨hprint, hm.header, hlen, fun t => hm.clear t "DATALEN" (by decide), fun hnil t => ?_⟩
      rw [parsed_eq hprint hm.fits hb (hm.clear t)]
      simpa [hnil] using hempty
    obtain ⟨block, i, hfound⟩ := hstored.found
    obtain ⟨h, t, ⟨u, hopen⟩, hopened⟩ := looks_openFile true henv hmounted hfound hfile hst htext
    obtain ⟨h', v, hread⟩ := hopened.looks_read_reread htext henv.readOk hmounted u
    have hall : (readAll env path d).1 = .ok (h.metadata.settings, data) := by
      unfold readAll
      rw [bind_ok hopen, bind_ok hread]
      rfl
    have hsettings : h.metadata.settings =
        (parsed m (behind (generateFileHeader m) data (env.beyond t))).settings := by
      rw [hopened.metadata, reread]
      exact settings_placed _ _ _
    rw [hall, hsettings, ← hparsed t]
    constructor
    · intro heq
      injection heq with heq
      injection heq with hsettings hdata
      exact ⟨hsettings, hdata⟩
    · rintro ⟨hsettings, hdata⟩
      rw [hsettings, hdata]
  · -- whatever the file opens as, its texts are not those that were written
    refine iff_of_false (fun hread => hb ?_) fun h => hb h.1.2
    have hread : readAll env path d = (.ok (m.settings, c), (readAll env path d).2) :=
      Prod.ext hread rfl
    obtain ⟨h, d₁, hopen, hrest⟩ := bind_eq_ok hread
    obtain ⟨⟨bytes, h'⟩, d₂, -, hdone⟩ := bind_eq_ok hrest
    obtain ⟨t, u, x, rfl, -, -, hopened, hx⟩ := hstored.opened henv hopen
    have hsettings : h.metadata.settings = m.settings := by
      injection congrArg Prod.fst hdone with heq
      exact congrArg Prod.fst heq
    have hfirst : (d.disk entry.blockOffset).bytes =
        Blocks.window 0 (fileText (generateFileHeader m) data) blockSize 0 := by
      simpa using htext.run 0 hstored.count
    rw [hfirst, window_fileText hm.header] at hx
    refine ((hparsed u).mp ?_).2
    rw [← hsettings, hopened.metadata, hx, settings_extract, parseFileHeader_generate,
      Option.getD_some]

/-- The settings are taken over: the entry names the run of the file as it was written, and the
path opens with the new settings and the data `c`. -/
structure Taken (env : Env) (d : Drive) (path : List UInt8) (new : FileMetadata) (c : List UInt8)
    (written : FileMetadata) : Prop where
  entry : ∃ block i entry, Found d (splitLocalPath path).1 (splitLocalPath path).2 block i entry ∧
    entry.blockOffset = written.blockOffset ∧ entry.blockCount = written.blockCount
  contents : (readAll env path d).1 = .ok (new.settings, c)

theorem OpenFile.segment (hopen : OpenFile d path h c) :
    (Segment.mk h.data h.dataSize).Ok ∧ h.dataSize = c.length ∧
      ((Segment.mk h.data h.dataSize).content = c ↔
        h.useStreaming = false ∨ c = List.replicate c.length 0) := by
  rcases hopen.contents with hmem | ⟨hs, hdata, -⟩
  · obtain ⟨hok, hcontent⟩ := hmem.segment
    exact ⟨hok, hmem.size, iff_of_true hcontent (Or.inl hmem.loaded)⟩
  · have hlen := hs.length
    refine ⟨?_, hlen.symm, ?_⟩
    · intro bytes hbytes
      have hbytes : h.data = some bytes := hbytes
      rw [hdata] at hbytes
      cases hbytes
    · have hcontent : (Segment.mk h.data h.dataSize).content = List.replicate c.length 0 := by
        unfold Segment.content
        rw [hdata, Option.getD_none, hlen]
      rw [hcontent, hs.streaming, or_iff_right (by decide), eq_comm]

/-- What is read of a file that was written back where its entry says. -/
theorem readAll_written (henv : env.Ok) {s : Segment} (hs : s.Ok) (hnew : new.Held)
    (hcan : CanRewrite env d₁ path m s) (hsettings : m.settings = new.settings)
    (hmounted : d.mounted = true) (hstored : StoredFile d path entry) (hfile : entry.type ≠ .dir)
    (htext : d.HoldsText entry.blockOffset entry.blockCount
      (fileText (writtenHeader m s.len) s.content)) :
    (readAll env path d).1 = .ok (new.settings, c) ↔
      (new.settings.Consistent ∧ ∀ s ∈ new.bare, Bare s) ∧ s.content = c := by
  rw [← hs.length] at htext
  have hsize : (writtenHeader m s.content.length).length + s.content.length + 5 + 4096 ≤ 2 ^ 32 :=
    hcan.size
  have hlong : u32 s.content.length = s.content.length := u32_eq_self (by omega)
  have hsettings : (segmentsMetadata m s.content.length 0).settings = new.settings :=
    (settings_segmentsMetadata m _).trans hsettings
  have hbare := bare_eq_of_settings hsettings
  rw [← hsettings, ← hbare]
  refine readAll_run henv (hbare ▸ hnew.noZero) hcan.reopens ?_ ?_ hmounted hstored hfile htext
  · exact (segmentsMetadata_run m s.content.length).2.2.trans hlong
  · have hsettle : segmentsMetadata m s.content.length 0 = settleHeader m s.content.length := by
      rw [segmentsMetadata, Nat.add_zero, hlong]
    rw [writtenHeader, hsettle] at hsize
    rw [hsettle]
    exact settleHeader_fileLength_le m _ (by omega)

/-- **Setting metadata.** On a machine that serves every request, setting the metadata of a stored
file takes them over and leaves its data alone exactly when the data are in memory, the file needs
as many blocks as before, and the settings are consistent with texts that a header can hold. -/
theorem setMetadata_taken_iff (env : Env) (henv : env.Ok) {d d₁ : Drive} {path : List UInt8}
    {entry : DirEntry} {h : FileHandle} {new : FileMetadata} (hstored : StoredFile d path entry)
    (hpath : strncpy maxPath path = path) (hopen : openFile env path false d = (.ok h, d₁))
    (hsound : h.Sound) (hnew : new.Held)
    (hcan : CanRewrite env d₁ path (newMetadata env h new d₁) ⟨h.data, h.dataSize⟩) :
    (∀ d', setMetadata env path new d = (.ok ⟨⟩, d') →
        ∀ written d₂, rewriteFile env h new d₁ = (.ok written, d₂) →
        Taken env d' path new (h.contents d) written) ↔
      (h.useStreaming = false ∨
          h.contents d = List.replicate (h.contents d).length 0) ∧
        writtenBlocks (newMetadata env h new d₁) h.dataSize = entry.blockCount ∧
        new.settings.Consistent ∧ ∀ s ∈ new.bare, Bare s := by
  obtain ⟨t, u, x, rfl, hmounted, hfile, hopened, hx⟩ := hstored.opened henv hopen
  obtain ⟨block, i, hfound⟩ := hstored.found
  obtain ⟨hfileOpen, -⟩ := openFile_openFile henv hopen hmounted hpath hsound
  obtain ⟨hs, hlen, hcontent⟩ := hfileOpen.segment
  have hsame : h.contents (d.later t) = h.contents d := rfl
  rw [hsame] at hlen hcontent
  obtain ⟨m, hm⟩ : ∃ m, m = newMetadata env h new (d.later t) := ⟨_, rfl⟩
  obtain ⟨s, hseg⟩ : ∃ s, s = Segment.mk h.data h.dataSize := ⟨_, rfl⟩
  have hslen : s.len = h.dataSize := by rw [hseg]
  rw [← hm, ← hseg] at hcan
  rw [← hseg] at hs hcontent
  rw [← hm, ← hcontent, ← hslen]
  have hclean : h.modified = false := by cases hopened <;> rfl
  obtain ⟨start, d₂, d', hrewrite, hset, hmounted', hplaced, hfound', htext⟩ :=
    setMetadata_run henv hopen hmounted hfileOpen.named hclean hm hseg hs hcan (hfound.later t) hfile
  have hsettings : m.settings = new.settings := by
    rw [hm, newMetadata, settings_updated hnew]
  -- the entry names the run as long as the blocks are as many
  have hplace : writtenBlocks m s.len = entry.blockCount → start = entry.blockOffset := by
    intro hn
    have hold : m.blockOffset = entry.blockOffset ∧ m.blockCount = entry.blockCount := by
      rw [hm, newMetadata]
      show h.metadata.blockOffset = _ ∧ h.metadata.blockCount = _
      rw [hopened.metadata, hx, extract]
      exact ⟨rfl, rfl⟩
    rcases hplaced with ⟨-, -, hstart⟩ | ⟨hnot, -⟩
    · exact hstart.trans hold.1
    · exact absurd ⟨hold.1 ▸ hstored.offset, by rw [hn, hold.2]⟩ hnot
  have hread : writtenBlocks m s.len = entry.blockCount →
      ((readAll env path d').1 = .ok (new.settings, h.contents d) ↔
        (new.settings.Consistent ∧ ∀ s ∈ new.bare, Bare s) ∧ s.content = h.contents d) := by
    intro hn
    rw [hplace hn, hn] at htext
    exact readAll_written henv hs hnew hcan hsettings hmounted'
      ⟨⟨block, i, hfound'⟩, hstored.offset, hstored.count, hstored.size⟩ hfile htext
  constructor
  · intro hall
    have htaken := hall d' hset _ d₂ hrewrite
    obtain ⟨block', i', entry', hfound'', -, hn⟩ := htaken.entry
    rw [hfound'.unique hfound''] at hn
    have hn : writtenBlocks m s.len = entry.blockCount := hn.symm
    obtain ⟨hconsistent, hdata⟩ := (hread hn).mp htaken.contents
    exact ⟨hdata, hn, hconsistent⟩
  · rintro ⟨hdata, hn, hconsistent⟩ d'' hset' written d₂' hrewrite'
    obtain rfl : d'' = d' := congrArg Prod.snd (hset'.symm.trans hset)
    have hwritten := congrArg Prod.fst (hrewrite'.symm.trans hrewrite)
    injection hwritten with hwritten
    refine ⟨⟨block, i, _, hfound', ?_, ?_⟩, (hread hn).mpr ⟨hconsistent, hdata⟩⟩
    · rw [hwritten]
      exact (hplace hn).symm
    · rw [hwritten]
      exact hn.symm

def runnableNote : FileMetadata := { runnable := true, entrypoint := 64 }

theorem storedFile_note : StoredFile noteDrive (ascii "a") ⟨ascii "a", .file, 3, 1, false⟩ where
  found := ⟨2, 0, by decide, by rw [folderAt_note]; decide, by rw [folderAt_note]; decide⟩
  offset := by decide
  count := by decide
  size := by decide

theorem openFile_noteDrive : ∃ t, openFile calmEnv (ascii "a") false noteDrive =
    (.ok noteHandle, noteDrive.later t) := by
  have hfst : (openFile calmEnv (ascii "a") false noteDrive).1 = .ok noteHandle := by
    decide +kernel
  generalize hrun : openFile calmEnv (ascii "a") false noteDrive = r at hfst
  obtain ⟨_, d₁⟩ := r
  cases hfst
  obtain ⟨t, -, -, hlater, -⟩ := storedFile_note.opened calmEnv_ok hrun
  exact ⟨t, by rw [hlater]⟩

def runnableMetadata : FileMetadata := newMetadata calmEnv noteHandle runnableNote noteDrive

theorem clear_note : ∀ T ∈ headerTags,
    (∀ v ∈ (segmentsMetadata runnableMetadata 5 0).quoted, ¬ tagStart T <:+: v) ∧
      ¬ tagStart T <:+: cstr (behind (writtenHeader runnableMetadata 5) (ascii "hello") []) := by
  decide +kernel

theorem canRewrite_note (t : ℕ) : CanRewrite calmEnv (noteDrive.later t) (ascii "a")
    runnableMetadata ⟨some (ascii "hello"), 5⟩ where
  tidy := tidy_note rfl rfl t
  size := by decide +kernel
  room := Or.inl ⟨by decide, by decide +kernel⟩
  reopens := ⟨by decide +kernel, ⟨by decide, by decide, by decide, by decide, by decide, by decide,
    by decide, by decide +kernel, by decide +kernel, by decide⟩, by decide +kernel,
    fun _ => clear_note⟩
  folder := fun _ _ _ hfound => changeable_note rfl hfound

theorem setMetadata_taken_note :
    ∃ d₁, openFile calmEnv (ascii "a") false noteDrive = (.ok noteHandle, d₁) ∧
      ∀ d', setMetadata calmEnv (ascii "a") runnableNote noteDrive = (.ok ⟨⟩, d') →
        ∀ written d₂, rewriteFile calmEnv noteHandle runnableNote d₁ = (.ok written, d₂) →
        Taken calmEnv d' (ascii "a") runnableNote (ascii "hello") written := by
  obtain ⟨t, hopen⟩ := openFile_noteDrive
  have hbare : ∀ s ∈ runnableNote.bare, Bare s := by
    intro s hs
    obtain rfl : s = [] := (show ∀ s ∈ runnableNote.bare, s = [] by decide) s hs
    exact ⟨by decide, by decide, by simp⟩
  refine ⟨_, hopen, ?_⟩
  exact (setMetadata_taken_iff calmEnv calmEnv_ok
    storedFile_note (by decide) hopen ⟨⟨by decide, by decide⟩, by decide, by decide⟩
    ⟨by decide, by decide, by decide, by decide⟩ (canRewrite_note t)).mpr
    ⟨Or.inl rfl, show writtenBlocks runnableMetadata 5 = 1 by decide +kernel, by decide, hbare⟩

/-- A volume with a file of 16385 bytes in the root directory, a word among them. -/
def wordDrive : Drive :=
  { longDrive with
    disk := fun b => if b = 4 then Block.ofBytes (ascii "text") else longDrive.disk b }

/-- Setting the metadata of a file that is read in blocks clears its data. -/
theorem setMetadata_clears_data :
    ((do
      let before ← readAll calmEnv (ascii "a")
      setMetadata calmEnv (ascii "a") {}
      let after ← readAll calmEnv (ascii "a")
      pure ((before.2.drop 4048).take 4, (after.2.drop 4048).take 4)) wordDrive).1 =
      .ok (ascii "text", [0, 0, 0, 0]) := by
  decide +kernel

end MinimalOS.Minimafs
