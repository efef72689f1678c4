import MinimalOS.Minimafs.Rewrite

/-!
# What was written is read

`minimafs_write` puts bytes into the data of a handle, and `minimafs_close` writes the data back.
For a handle that has its data in memory, the file then reads as its old contents overwritten by
the buffer, through the handle and through the path. A handle that reads its blocks on demand has
no data to write into.
-/

namespace MinimalOS.Minimafs

open CString Fs List

variable {d d' : Drive} {env : Env} {h h' : FileHandle} {path c b : List UInt8} {p : ℕ}

/-! ## The handle -/

/-- The handle has the contents in memory, or no buffer where there are none. -/
structure InMemory (c : List UInt8) (h : FileHandle) : Prop where
  loaded : h.useStreaming = false
  data : h.data.getD [] = c
  size : h.dataSize = c.length

theorem InMemory.seek (hh : InMemory c h) (offset : ℕ) : InMemory c (h.seek offset) :=
  ⟨hh.loaded, hh.data, hh.size⟩

theorem InMemory.holds (hh : InMemory c h) (hc : c ≠ []) (hpos : h.position ≤ c.length) :
    Holds c h := by
  refine ⟨hh.loaded, ?_, hh.size, hpos⟩
  have hdata := hh.data
  cases hd : h.data with
  | none =>
    rw [hd] at hdata
    exact absurd hdata.symm hc
  | some data =>
    rw [hd] at hdata
    exact congrArg some hdata

theorem InMemory.read_whole (hh : InMemory c h) (env : Env) (d : Drive) :
    ∃ h', Looks (readFile env (h.seek 0) h.dataSize) d (c, h') := by
  by_cases hc : c = []
  · refine ⟨h.seek 0, ?_⟩
    unfold readFile
    rw [if_pos (show (h.seek 0).dataSize ≤ (h.seek 0).position by
      show h.dataSize ≤ min 0 h.dataSize
      rw [hh.size, hc]
      exact Nat.zero_le _), hc]
    exact .of_pure _
  · have hzero : (h.seek 0).position = 0 := Nat.zero_min _
    obtain ⟨h', hlooks, -, -⟩ := ((hh.seek 0).holds hc (hzero ▸ Nat.zero_le _)).read env d h.dataSize
    rw [hzero, drop_zero, hh.size, take_length, ← hh.size] at hlooks
    exact ⟨h', hlooks⟩

theorem InMemory.segment (hh : InMemory c h) :
    (Segment.mk h.data h.dataSize).Ok ∧ (Segment.mk h.data h.dataSize).content = c := by
  obtain ⟨-, hdata, hsize⟩ := hh
  constructor
  · intro bytes hbytes
    have hbytes : h.data = some bytes := hbytes
    rw [hbytes] at hdata
    exact (congrArg List.length hdata).trans hsize.symm
  · show h.data.getD (List.replicate h.dataSize 0) = c
    cases hd : h.data with
    | none =>
      rw [hd] at hdata
      rw [Option.getD_none, hsize, ← hdata]
      rfl
    | some data =>
      rw [hd] at hdata
      exact hdata

/-! ## Writing into it -/

def FileMetadata.touched (m : FileMetadata) (env : Env) (t size : ℕ) : FileMetadata :=
  { m with lastChanged := getDatetime (env.clock t), dataLength := size }

theorem growData_run (hheap : ∀ t, env.heap t = true) (hh : InMemory c h) (needed : ℕ) (d : Drive) :
    ∃ data t, growData env h needed d =
        (.ok (some { h with data := data, dataSize := max c.length needed }), d.later t) ∧
      (data.getD []).length = max c.length needed ∧ (data.getD []).take c.length = c := by
  obtain ⟨-, hdata, hsize⟩ := hh
  unfold growData
  by_cases hfits : needed ≤ h.dataSize
  · rw [if_pos hfits]
    rw [hsize] at hfits
    refine ⟨h.data, d.moment, ?_, ?_, ?_⟩
    · rw [Nat.max_eq_left hfits, ← hsize]
      rfl
    · rw [hdata, Nat.max_eq_left hfits]
    · rw [hdata, take_length]
  · rw [if_neg hfits, bind_ok moment_run]
    rw [if_pos (.inr (hheap _))]
    rw [hsize] at hfits
    have hlong : c.length < needed := not_le.mp hfits
    rw [Nat.max_eq_right hlong.le, hdata, hsize, take_length]
    have hfill : ∀ fresh : List UInt8, fresh.length = needed →
        (Patch.write fresh (0, c)).length = needed ∧
          (Patch.write fresh (0, c)).take c.length = c := by
      intro fresh hfresh
      refine ⟨?_, ?_⟩
      · rw [Patch.length_write (show Patch.Fits fresh (0, c) by
          show 0 + c.length ≤ fresh.length
          omega), hfresh]
      · rw [Patch.write, take_zero, nil_append, take_left]
    refine ⟨_, _, rfl, hfill _ ?_⟩
    split_ifs
    · exact length_replicate
    · rw [length_map, length_range]

theorem getD_map_write {data : Option (List UInt8)} (hpos : p ≤ c.length)
    (hlen : (data.getD []).length = max c.length (p + b.length))
    (htake : (data.getD []).take c.length = c) :
    (data.map fun bytes => Patch.write bytes (p, b)).getD [] = Patch.write c (p, b) := by
  cases data with
  | some bytes => exact Patch.write_of_take (w := (p, b)) hpos hlen htake
  | none =>
    rw [Option.getD_none, length_nil] at hlen
    obtain rfl : c = [] := eq_nil_of_length_eq_zero (by omega)
    obtain rfl : b = [] := eq_nil_of_length_eq_zero (by omega)
    obtain rfl : p = 0 := by omega
    rfl

/-- **Writing in memory.** -/
theorem writeFile_run (hheap : ∀ t, env.heap t = true) (hh : InMemory c h)
    (hwritable : h.readOnly = false) (hpos : h.position ≤ c.length)
    (hsmall : (Patch.write c (h.position, b)).length < 2 ^ 32) (d : Drive) :
    ∃ h' s t, writeFile env h b d = (.ok (b.length, h'), d.later t) ∧
      InMemory (Patch.write c (h.position, b)) h' ∧ h'.path = h.path ∧ h'.readOnly = false ∧
      h'.modified = true ∧
      h'.metadata = h.metadata.touched env s (Patch.write c (h.position, b)).length := by
  have hlen : (Patch.write c (h.position, b)).length = max c.length (h.position + b.length) :=
    Patch.length_write_max hpos
  have hneeded : u32 (h.position + b.length) = h.position + b.length := u32_eq_self (by omega)
  obtain ⟨data, t, hgrow, hlength, htake⟩ := growData_run hheap hh (h.position + b.length) d
  rw [← hneeded] at hgrow
  refine ⟨{ h with
      data := data.map fun bytes => Patch.write bytes (h.position, b)
      dataSize := max c.length (u32 (h.position + b.length))
      position := u32 (h.position + b.length)
      modified := true
      metadata := h.metadata.touched env t (max c.length (u32 (h.position + b.length))) }, t, t + 1,
    ?_, ⟨hh.loaded, getD_map_write hpos hlength htake, ?_⟩, rfl, hwritable, rfl, ?_⟩
  · unfold writeFile
    rw [if_neg (ne_true_of_eq_false hwritable), bind_ok hgrow]
    dsimp only
    rw [if_pos (.inr (hlength ▸ le_max_right _ _)), bind_ok now_run]
    rfl
  · rw [hneeded, hlen]
  · rw [hneeded, hlen]

theorem writeFile_crashes (hdata : h.data = none) (hwritable : h.readOnly = false) (hb : b ≠ [])
    (hin : h.position + b.length ≤ h.dataSize) (hsmall : h.dataSize < 2 ^ 32) (d : Drive) :
    writeFile env h b d = (.error .crashed, d) := by
  have hneeded : u32 (h.position + b.length) = h.position + b.length := u32_eq_self (by omega)
  have hgrow : growData env h (h.position + b.length) d = (.ok (some h), d) := by
    unfold growData
    rw [if_pos hin]
    rfl
  have hpos : 0 < b.length := length_pos_iff.mpr hb
  have hroom : ¬ (b = [] ∨ h.position + b.length ≤ (h.data.getD []).length) := by
    rw [hdata, Option.getD_none, length_nil]
    rintro (hnil | hle)
    · exact hb hnil
    · omega
  unfold writeFile
  rw [hwritable, if_neg (by decide), hneeded, bind_ok hgrow]
  dsimp only
  rw [if_neg hroom]
  rfl

/-! ## Open files -/

/-- A handle that is open to write to the file at a path, which has the contents `c`. -/
structure OpenFile (d : Drive) (path : List UInt8) (h : FileHandle) (c : List UInt8) : Prop where
  mounted : d.mounted = true
  named : h.path = path
  writable : h.readOnly = false
  found : ∃ block i entry, Found d (splitLocalPath path).1 (splitLocalPath path).2 block i entry ∧
    entry.type ≠ .dir
  contents : InMemory c h ∨ StreamsTo d c h ∧ h.data = none ∧ streamingThreshold < c.length

section Opening

variable (henv : env.Ok)

include henv

variable {totalSize : ℕ} {entry : DirEntry} {d₀ : Drive}

theorem openLoaded_memory (ho : openLoaded env h totalSize d = (.ok h', d')) :
    h'.useStreaming = false := by
  unfold openLoaded at ho
  by_cases hzero : h.dataSize = 0
  · rw [if_pos hzero] at ho
    cases ho
    rfl
  · obtain ⟨t, ht⟩ := looks_request (d := d) henv
    rw [if_neg hzero, bind_ok (attempt_ok ht), if_neg (by simp)] at ho
    by_cases htotal : totalSize ≠ h.fileBlockCount * blockSize
    · rw [if_pos htotal] at ho
      cases ho
    · rw [if_neg htotal] at ho
      obtain ⟨blocks, u, -, ho⟩ := (quiet_readBlocks _ _).bind_eq_ok ho
      have hdone : ∀ {d₁ : Drive} {data : List UInt8}, (if totalSize < h.dataOffsetInBlocks +
          h.dataSize then crashed else pure (h.loaded data) : Fs FileHandle) d₁ = (.ok h', d') →
          h'.useStreaming = false := by
        intro d₁ data ho
        split_ifs at ho
        · cases ho
        · cases ho
          rfl
      by_cases hinline : inlineSize < h.dataSize
      · rw [if_pos hinline] at ho
        obtain ⟨_, _, -, ho⟩ := quiet_request.bind_eq_ok ho
        exact hdone ho
      · rw [if_neg hinline] at ho
        exact hdone ho

theorem openData_streaming (ho : openData env h totalSize d = (.ok h', d')) :
    h'.useStreaming = true ↔ streamingThreshold < h.dataSize := by
  unfold openData at ho
  by_cases hlong : streamingThreshold < h.dataSize
  · rw [if_pos hlong] at ho
    obtain ⟨h₁, t, ht⟩ := looks_openStreaming (d := d) henv h
    obtain ⟨cache, rfl⟩ := openStreaming_eq ht
    rw [bind_ok (attempt_ok ht)] at ho
    cases ho
    exact iff_of_true rfl hlong
  · rw [if_neg hlong] at ho
    rw [openLoaded_memory henv ho]
    exact iff_of_false (by decide) hlong

theorem openEntry_streaming {readOnly : Bool}
    (ho : openEntry env path readOnly entry d = (.ok h, d')) :
    entry.type ≠ .dir ∧ (h.useStreaming = true ↔ streamingThreshold < h.dataSize) := by
  obtain ⟨_, t₁, h₁, ho⟩ := (quiet_require _).bind_eq_ok ho
  have hfile : entry.type ≠ .dir := by
    by_contra hnot
    unfold require at h₁
    rw [if_neg (not_not.mpr hnot)] at h₁
    cases h₁
  refine ⟨hfile, ?_⟩
  obtain ⟨_, t₂, -, ho⟩ := quiet_request.bind_eq_ok ho
  by_cases hzero : u32 (entry.blockCount * blockSize) = 0
  · rw [if_pos hzero] at ho
    cases ho
    exact iff_of_false Bool.false_ne_true (by simp [FileHandle.fresh])
  · rw [if_neg hzero] at ho
    obtain ⟨s, t₃, -, ho⟩ := quiet_moment.bind_eq_ok ho
    obtain ⟨first, t₄, -, ho⟩ := (quiet_readBlock _).bind_eq_ok ho
    obtain ⟨_, t₅, -, ho⟩ := quiet_request.bind_eq_ok ho
    have hopened := openData_opened henv.readOk ho
    rw [openData_streaming henv ho, hopened.size]
    rfl

theorem openEntry_found {d₁ d₂ : Drive} {parent filename : List UInt8}
    (hlookup : lookupEntry env parent filename d₁ = (.ok (some entry), d₂))
    (ho : openEntry env path false entry d₂ = (.ok h, d)) :
    ∃ block i entry x, Found d parent filename block i entry ∧ entry.type ≠ .dir ∧
      Opened d path false entry x h ∧
      (h.useStreaming = true ↔ streamingThreshold < h.dataSize) := by
  obtain ⟨block, i, hfound⟩ := found_of_lookupEntry henv.readOk hlookup
  obtain ⟨t, rfl⟩ := (quiet_lookupEntry _ _).later hlookup
  obtain ⟨hfile, hstream⟩ := openEntry_streaming henv ho
  obtain ⟨x, hopened, -⟩ := openEntry_opened henv.readOk ho
  obtain ⟨u, rfl⟩ := (quiet_openEntry _ _ _).later ho
  exact ⟨block, i, entry, x, hfound.later u, hfile, hopened.of_later.later u, hstream⟩

theorem openFile_found (ho : openFile env path false d₀ = (.ok h, d)) :
    ∃ block i entry x, Found d (splitLocalPath path).1 (splitLocalPath path).2 block i entry ∧
      entry.type ≠ .dir ∧ Opened d path false entry x h ∧
      (h.useStreaming = true ↔ streamingThreshold < h.dataSize) := by
  obtain ⟨_, t₂, -, ho⟩ := (quiet_require _).bind_eq_ok ho
  obtain ⟨_, t₃, -, ho⟩ := quiet_request.bind_eq_ok ho
  obtain ⟨r, d₁, h₁, ho⟩ := bind_eq_ok ho
  cases r with
  | some entry => exact openEntry_found henv h₁ ho
  | none =>
    obtain ⟨_, d₂, -, ho⟩ := bind_eq_ok ho
    obtain ⟨_, d₃, -, ho⟩ := bind_eq_ok ho
    obtain ⟨r, d₄, h₄, ho⟩ := bind_eq_ok ho
    cases r with
    | some entry => exact openEntry_found henv h₄ ho
    | none => cases ho

/-- **Opening a file to write.** -/
theorem openFile_openFile (ho : openFile env path false d₀ = (.ok h, d))
    (hmounted : d.mounted = true) (hpath : strncpy maxPath path = path) (hsound : h.Sound) :
    OpenFile d path h (h.contents d) ∧
      (h.useStreaming = true ↔ streamingThreshold < (h.contents d).length) := by
  obtain ⟨block, i, entry, x, hfound, hfile, hopened, hstream⟩ := openFile_found henv ho
  have hlen := hsound.length_contents d
  rw [← hlen] at hstream
  refine ⟨⟨hmounted, ?_, hopened.readOnly_eq, ⟨block, i, entry, hfound, hfile⟩, ?_⟩, hstream⟩
  · cases hopened <;> exact hpath
  · cases hopened with
    | empty hx =>
      have hnil : FileHandle.contents (FileHandle.opened path false entry x) d = [] :=
        eq_nil_of_length_eq_zero (hlen.trans hx)
      exact .inl ⟨rfl, hnil.symm, hlen.symm⟩
    | streams cache =>
      exact .inr ⟨⟨rfl, rfl, ⟨cache, rfl, ⟨hsound.blocks, hsound.inside⟩, hsound.small,
        .inl rfl⟩, Nat.zero_le _⟩, rfl, hstream.mp rfl⟩
    | loads data hdata => exact .inl ⟨rfl, hdata hsound.blocks, hlen.symm⟩

end Opening

/-! ## Reading what was written -/

/-- The file can be written back with other data: the directories are safe from it, there is room
for it, and what is written can be read. -/
structure CanStore (env : Env) (d : Drive) (path : List UInt8) (h : FileHandle)
    (data : List UInt8) : Prop where
  tidy : d.Tidy h.metadata
  storable : ∀ t, Storable env d (h.metadata.touched env t data.length) data
  folder : ∀ t block i entry,
    Found d (splitLocalPath path).1 (splitLocalPath path).2 block i entry →
    ∀ start, d.Placed h.metadata
      (writtenBlocks (h.metadata.touched env t data.length) data.length) start →
    d.Changeable (splitLocalPath path).1 block i (moved start
      (writtenBlocks (h.metadata.touched env t data.length) data.length) h.metadata.hidden)

/-- Write a buffer at a position and read the whole file through the same handle. -/
def writeAndRead (env : Env) (h : FileHandle) (p : ℕ) (b : List UInt8) : Fs (List UInt8) := do
  let (_, h) ← writeFile env (h.seek p) b
  let (bytes, _) ← readFile env (h.seek 0) h.dataSize
  pure bytes

/-- Write a buffer at a position, close the file, open it again and read the whole of it. -/
def writeAndReopen (env : Env) (path : List UInt8) (readOnly : Bool) (h : FileHandle) (p : ℕ)
    (b : List UInt8) : Fs (List UInt8) := do
  let (_, h) ← writeFile env (h.seek p) b
  closeFile env h
  let h ← openFile env path readOnly
  let (bytes, _) ← readFile env h h.dataSize
  pure bytes

/-- Both ways of reading return `c`. -/
def ReadsBack (env : Env) (d : Drive) (path : List UInt8) (h : FileHandle) (p : ℕ)
    (b c : List UInt8) : Prop :=
  (writeAndRead env h p b d).1 = .ok c ∧
    ∀ readOnly, (writeAndReopen env path readOnly h p b d).1 = .ok c

/-- **Closing a file** and opening it again. -/
theorem closeFile_reopen (henv : env.Ok) (hmounted : d.mounted = true)
    (hfound : ∃ block i entry, Found d (splitLocalPath path).1 (splitLocalPath path).2 block i
      entry ∧ entry.type ≠ .dir) (hh : InMemory c h) (hpath : h.path = path)
    (hwritable : h.readOnly = false) (hmodified : h.modified = true) (htidy : d.Tidy h.metadata)
    (hst : Storable env d h.metadata c)
    (hfolder : ∀ block i entry,
      Found d (splitLocalPath path).1 (splitLocalPath path).2 block i entry →
      ∀ start, d.Placed h.metadata (writtenBlocks h.metadata c.length) start →
      d.Changeable (splitLocalPath path).1 block i
        (moved start (writtenBlocks h.metadata c.length) h.metadata.hidden)) (readOnly : Bool)
    (t : ℕ) :
    ∃ d', closeFile env h (d.later t) = (.ok ⟨⟩, d') ∧ ∃ h' h'' u,
      openFile env path readOnly d' = (.ok h', d'.later u) ∧
      Looks (readFile env h' h'.dataSize) (d'.later u) (c, h'') := by
  obtain ⟨block, i, entry, hfound, hfile⟩ := hfound
  obtain ⟨hseg, hcontent⟩ := hh.segment
  subst hpath
  have hsize : h.dataSize = c.length := hh.size
  obtain ⟨d', entry', hback, hmounted', hfound', hfile', htext⟩ := writeBack_run
    (s := ⟨h.data, h.dataSize⟩) henv rfl hseg htidy hfound hfile (hcontent ▸ hst) (by
      show ∀ start, d.Placed h.metadata (writtenBlocks h.metadata h.dataSize) start →
        d.Changeable _ _ _ (moved start (writtenBlocks h.metadata h.dataSize) _)
      rw [hsize]
      exact hfolder block i entry hfound) t
  rw [hcontent] at htext
  rw [hmounted] at hmounted'
  obtain ⟨h', s, ⟨u, hopen⟩, hopened⟩ := looks_openFile readOnly henv
    hmounted' hfound' hfile' hst.legible htext
  obtain ⟨h'', hread⟩ := hopened.looks_read_reread htext henv.readOk hmounted' u
  refine ⟨d', ?_, h', h'', u, hopen, hread⟩
  unfold closeFile
  rw [bind_ok get_run, if_pos ⟨hmodified, by rw [hwritable]; decide, hmounted⟩,
    bind_ok (attempt_ok hback)]
  rfl

variable {m : FileMetadata} {data : List UInt8}

theorem Drive.Tidy.touched (htidy : d.Tidy m) (t size : ℕ) : d.Tidy (m.touched env t size) :=
  ⟨⟨htidy.ordered, htidy.total, htidy.old⟩, htidy.positive, htidy.range, htidy.used, htidy.apart⟩

theorem OpenFile.readsBack (henv : env.Ok) (hopen : OpenFile d path h c) (hmem : InMemory c h)
    (hp : p ≤ c.length) (hstore : CanStore env d path h (Patch.write c (p, b))) :
    ReadsBack env d path h p b (Patch.write c (p, b)) := by
  have hpos : (h.seek p).position = p := by
    show min p h.dataSize = p
    rw [hmem.size, Nat.min_eq_left hp]
  have hsmall : (Patch.write c (p, b)).length < 2 ^ 32 :=
    (Nat.le_add_left _ _).trans_lt ((Nat.lt_add_of_pos_right (by decide : 0 < 5 + blockSize)).trans_le
      (by
        have := (hstore.storable 0).size
        rwa [Nat.add_assoc _ 5] at this))
  obtain ⟨h₁, s, t, hwrite, hmem₁, hpath, hwritable, hmodified, hmetadata⟩ :=
    writeFile_run (b := b) henv.heap (hmem.seek p) hopen.writable (by rw [hpos]; exact hp)
      (by rw [hpos]; exact hsmall) d
  rw [hpos] at hmem₁ hmetadata
  have hmetadata : h₁.metadata = h.metadata.touched env s (Patch.write c (p, b)).length := hmetadata
  refine ⟨?_, fun readOnly => ?_⟩
  · obtain ⟨h₂, u, hread⟩ := hmem₁.read_whole env (d.later t)
    unfold writeAndRead
    rw [bind_ok hwrite]
    dsimp only
    rw [bind_ok hread]
    rfl
  · obtain ⟨d', hclose, h₂, h₃, u, hreopen, v, hread⟩ := closeFile_reopen henv hopen.mounted
      hopen.found hmem₁ (hpath.trans hopen.named) hwritable hmodified
      (hmetadata ▸ hstore.tidy.touched s _) (hmetadata ▸ hstore.storable s)
      (by
        rw [hmetadata]
        exact hstore.folder s) readOnly t
    unfold writeAndReopen
    rw [bind_ok hwrite]
    dsimp only
    rw [bind_ok hclose, bind_ok hreopen, bind_ok hread]
    rfl

/-- A handle that reads its blocks on demand stops at the first byte that is written into it. -/
theorem StreamsTo.not_readsBack (hs : StreamsTo d c h) (hdata : h.data = none)
    (hwritable : h.readOnly = false) (hb : b ≠ []) (hin : p + b.length ≤ c.length)
    (hsmall : c.length < 2 ^ 32) {c' : List UInt8} : ¬ ReadsBack env d path h p b c' := by
  have hlen := hs.length
  have hpos : (h.seek p).position = p := Nat.min_eq_left (by omega)
  have hcrash : writeFile env (h.seek p) b d = (.error .crashed, d) := by
    refine writeFile_crashes (h := h.seek p) hdata hwritable hb ?_ ?_ d
    · rw [hpos]
      show p + b.length ≤ h.dataSize
      omega
    · show h.dataSize < 2 ^ 32
      omega
  rintro ⟨hread, -⟩
  unfold writeAndRead at hread
  rw [bind_error hcrash] at hread
  cases hread

/-- **Writing and reading.** On a machine that serves every request, every write to an open file
that the volume has room for reads back, through the handle and after the file was closed and
opened again, exactly when the handle has its data in memory. -/
theorem writes_read_back_iff (env : Env) (henv : env.Ok) {d : Drive} {path c : List UInt8}
    {h : FileHandle} (hopen : OpenFile d path h c) (hstore : CanStore env d path h c) :
    (∀ p ≤ c.length, ∀ b, CanStore env d path h (Patch.write c (p, b)) →
        ReadsBack env d path h p b (Patch.write c (p, b)) ∧
          (Patch.write c (p, b)).length = max c.length (p + b.length)) ↔
      h.useStreaming = false := by
  constructor
  · intro hall
    rcases hopen.contents with hmem | ⟨hs, hdata, hlong⟩
    · exact hmem.loaded
    · -- the first byte of the file, written where it is
      have hsame : Patch.write c (0, c.take 1) = c := by
        rw [Patch.write, take_zero, nil_append, Nat.zero_add, length_take,
          Nat.min_eq_left (by omega), take_append_drop]
      have hone : (c.take 1).length = 1 := by
        rw [length_take, Nat.min_eq_left (by omega)]
      have hback := (hall 0 (Nat.zero_le _) (c.take 1) (by rw [hsame]; exact hstore)).1
      have hsmall : c.length < 2 ^ 32 := by
        have hsize : _ + c.length + 5 + 4096 ≤ 2 ^ 32 := (hstore.storable 0).size
        omega
      exact absurd hback (hs.not_readsBack hdata hopen.writable
        (ne_nil_of_length_pos (by omega)) (by omega) hsmall)
  · intro hmem p hp b hst
    have hmem : InMemory c h := hopen.contents.resolve_right fun hs => by
      have := hs.1.streaming
      rw [hmem] at this
      cases this
    exact ⟨hopen.readsBack henv hmem hp hst, Patch.length_write_max hp⟩

/-- A full volume with a file of five bytes in the root directory. -/
def noteDrive : Drive :=
  { calmDrive with
    storageDesc := { rootBlock := 2 }
    alloc := ⟨[⟨0, 4⟩], 1, 4, 0⟩
    disk := fun b => Block.ofBytes
      (if b = 2 then ascii "FOLDER:/\nENTRIES:1\nENTRY:a,FILE,BLOCK:3,COUNT:1,HIDDEN:0\n@END\n"
      else ascii "@HEADER@\n@FILELEN:51@\n@DATALEN:5@\n@DATA@\nhello@END\n") }

def noteHandle : FileHandle :=
  (FileHandle.opened (ascii "a") false ⟨ascii "a", .file, 3, 1, false⟩
    ⟨{ fileLength := 51, dataLength := 5, blockOffset := 3, blockCount := 1 }, 41, 5⟩).loaded
      (ascii "hello")

theorem folderAt_note : noteDrive.folderAt 2 =
    ⟨[47], 2, [⟨ascii "a", .file, 3, 1, false⟩]⟩ := by
  decide +kernel

theorem dirBlock_note {b t : ℕ} (h : (noteDrive.later t).DirBlock b) : b = 2 := by
  induction h with
  | root => rfl
  | child _ he htype ih =>
    have he : _ ∈ (noteDrive.folderAt _).entries := he
    rw [ih, folderAt_note] at he
    obtain rfl := mem_singleton.mp he
    cases htype

theorem tidy_note (hoffset : m.blockOffset = 3) (hcount : m.blockCount = 1) (t : ℕ) :
    (noteDrive.later t).Tidy m := by
  refine ⟨⟨?_, show 4 ≤ 2 ^ 32 by decide, by rw [hoffset, hcount]; decide⟩, ?_, ?_, ?_, ?_⟩
  · exact Intervals.spread_cons.mpr ⟨by decide, show 4 ≤ 4 from le_rfl, nofun,
      Intervals.spread_nil⟩
  · rintro b hb
    rw [dirBlock_note hb]
    decide
  · rintro b hb
    rw [dirBlock_note hb]
    decide
  · rintro b hb
    rw [dirBlock_note hb]
    exact (used_cons 2).mpr (.inl ⟨by decide, by decide⟩)
  · rintro b hb
    rw [dirBlock_note hb, hoffset]
    omega

theorem changeable_note {t block i : ℕ} {entry : DirEntry} {f : DirEntry → DirEntry}
    (hf : f ⟨ascii "a", .file, 3, 1, false⟩ = ⟨ascii "a", .file, 3, 1, false⟩)
    (hfound : Found (noteDrive.later t) (splitLocalPath (ascii "a")).1
      (splitLocalPath (ascii "a")).2 block i entry) :
    (noteDrive.later t).Changeable (splitLocalPath (ascii "a")).1 block i f := by
  have hroot : noteDrive.folderBlock (splitLocalPath (ascii "a")).1 = some 2 := by decide
  have hblock : noteDrive.folderBlock (splitLocalPath (ascii "a")).1 = some block := hfound.folder
  obtain rfl : 2 = block := Option.some.inj (hroot.symm.trans hblock)
  have hindex : findEntryInFolder (noteDrive.folderAt 2) _ = some i := hfound.index
  rw [folderAt_note] at hindex
  obtain rfl : 0 = i := Option.some.inj ((show _ = some 0 by decide).symm.trans hindex)
  have hfolder : (noteDrive.later t).changedFolder (splitLocalPath (ascii "a")).1 2 0 f =
      ⟨[47], 2, [⟨ascii "a", .file, 3, 1, false⟩]⟩ := by
    show (⟨(noteDrive.folderOf (splitLocalPath (ascii "a")).1 2).path, 2,
      (noteDrive.folderAt 2).entries.modify 0 f⟩ : FolderDesc) = _
    rw [folderAt_note, show (noteDrive.folderOf (splitLocalPath (ascii "a")).1 2).path = [47]
      by decide +kernel]
    show (⟨[47], 2, [f _]⟩ : FolderDesc) = _
    rw [hf]
  unfold Drive.Changeable
  rw [hfolder]
  refine ⟨⟨by decide, by decide, by decide, fun e he => ?_⟩, by decide +kernel⟩
  rw [mem_singleton.mp he]
  exact ⟨by decide, by decide, by decide, by decide, by decide⟩

theorem openFile_note : OpenFile noteDrive (ascii "a") noteHandle (ascii "hello") where
  mounted := rfl
  named := by decide
  writable := rfl
  found := ⟨2, 0, ⟨ascii "a", .file, 3, 1, false⟩, ⟨by decide, by rw [folderAt_note]; decide,
    by rw [folderAt_note]; decide⟩, by decide⟩
  contents := .inl ⟨rfl, rfl, by decide⟩

/-- The metadata that are written with `n` bytes of data. -/
def noteMetadata (n : ℕ) : FileMetadata := noteHandle.metadata.touched calmEnv 0 n

theorem placed_note {start : ℕ} (hoffset : m.blockOffset = 3) (h : noteDrive.Placed m 1 start) :
    start = 3 := by
  rcases h with ⟨-, -, rfl⟩ | ⟨-, -, hin, hfree⟩
  · exact hoffset
  · have hin : start + 1 ≤ 4 := hin
    exact absurd ((used_cons start).mpr (.inl ⟨Nat.zero_le _, by
      show start < 4
      omega⟩)) (hfree start le_rfl (by omega))

theorem canStore_note
    (hlegible : Legible calmEnv (segmentsMetadata (noteMetadata data.length) data.length 0) data)
    (hlen :
      (writtenHeader (noteMetadata data.length) data.length).length + data.length + 5 ≤ 4096) :
    CanStore calmEnv noteDrive (ascii "a") noteHandle data := by
  have hblocks : writtenBlocks (noteMetadata data.length) data.length = 1 := by
    rw [writtenBlocks]
    omega
  refine ⟨tidy_note (m := noteHandle.metadata) rfl rfl 0, fun t => ⟨?_, ?_, hlegible⟩, ?_⟩
  · show (writtenHeader (noteMetadata data.length) data.length).length + data.length + 5 + 4096 ≤ _
    omega
  · refine .inl ⟨show (3 : ℕ) ≠ 0 by decide, ?_⟩
    show writtenBlocks (noteMetadata data.length) data.length ≤ 1
    rw [hblocks]
  · intro t block i entry hfound start hplaced
    have hplaced : noteDrive.Placed noteHandle.metadata
      (writtenBlocks (noteMetadata data.length) data.length) start := hplaced
    show noteDrive.Changeable _ block i
      (moved start (writtenBlocks (noteMetadata data.length) data.length) false)
    rw [hblocks] at hplaced ⊢
    rw [placed_note rfl hplaced]
    exact changeable_note (t := 0) rfl hfound

theorem legible_note (hne : data ≠ [])
    (hlen : (segmentsMetadata (noteMetadata data.length) data.length 0).dataLength = data.length)
    (hheader : (writtenHeader (noteMetadata data.length) data.length).length ≤ 4096)
    (hquoted : ∀ s ∈ (segmentsMetadata (noteMetadata data.length) data.length 0).quoted,
      IsLine s ∧ (39 : UInt8) ∉ s ∧ ¬ tagStart "DATALEN" <:+: s)
    (hbare : ∀ s ∈ (segmentsMetadata (noteMetadata data.length) data.length 0).bare, IsPlain s)
    (hbehind : ¬ tagStart "DATALEN" <:+: cstr (behind (writtenHeader (noteMetadata data.length)
      data.length) data [])) : Legible calmEnv (segmentsMetadata (noteMetadata data.length) data.length 0) data :=
  ⟨⟨hbare, fun s hs => ⟨(hquoted s hs).1, (hquoted s hs).2.1⟩⟩, hheader, hlen,
    fun _ => ⟨fun v hv => (hquoted v hv).2.2, hbehind⟩, fun hnil => absurd hnil hne⟩

theorem calmEnv_ok : calmEnv.Ok := ⟨fun _ => rfl, fun _ _ => rfl, fun _ _ => rfl⟩

theorem writes_read_back_sample :
    ReadsBack calmEnv noteDrive (ascii "a") noteHandle 5 (ascii "!") (ascii "hello!") := by
  have hhello : CanStore calmEnv noteDrive (ascii "a") noteHandle (ascii "hello") :=
    canStore_note (legible_note (by decide) (by decide) (by decide +kernel) (by decide +kernel)
      (by decide +kernel) (by decide +kernel)) (by decide +kernel)
  have hlonger : CanStore calmEnv noteDrive (ascii "a") noteHandle (ascii "hello!") :=
    canStore_note (legible_note (by decide) (by decide) (by decide +kernel) (by decide +kernel)
      (by decide +kernel) (by decide +kernel)) (by decide +kernel)
  exact ((writes_read_back_iff calmEnv calmEnv_ok openFile_note
    hhello).mpr rfl 5 (by decide) (ascii "!") hlonger).1

/-- A volume with a file of 16385 zeros in the root directory. -/
def longDrive : Drive :=
  { calmDrive with
    storageDesc := { rootBlock := 2 }
    alloc := ⟨[⟨0, 8⟩], 1, 8, 0⟩
    disk := fun b => Block.ofBytes
      (if b = 2 then ascii "FOLDER:/\nENTRIES:1\nENTRY:a,FILE,BLOCK:3,COUNT:5,HIDDEN:0\n@END\n"
      else if b = 3 then ascii "@HEADER@\n@FILELEN:16438@\n@DATALEN:16385@\n@DATA@\n"
      else if b = 7 then List.replicate 49 0 ++ footer
      else []) }

/-- The file opens, and a byte written to its start goes through a null pointer. -/
theorem write_to_long_file_crashes :
    ((do
      let h ← openFile calmEnv (ascii "a") false
      pure h.dataSize) longDrive).1 = .ok 16385 ∧
    ((do
      let h ← openFile calmEnv (ascii "a") false
      writeAndRead calmEnv h 0 (ascii "x")) longDrive).1 = .error .crashed := by
  constructor
  · decide +kernel
  · decide +kernel

end MinimalOS.Minimafs
