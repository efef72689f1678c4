import MinimalOS.Pkg.Layout

/-!
# What is zipped comes out again

A run in which no call fails writes the files that were read, under their relative names in the
target directory, and makes their directories, exactly when the names of all of them pass the
check for safe names and their paths have room (`unzip_zip_iff`).
-/

namespace MinimalOS.Pkg

open CString List

variable {σ : Type} {F : FileSystem σ}

/-! ## Runs in which no call fails -/

def AllOk (r : Run σ) : Prop := ∀ e ∈ r.log, e.ok = true

variable {r r' : Run σ} {path rel full : Path} {d : Bool} {items items' : List ZipItem}

theorem Goes.allOk {P : Effect → Prop} (h : Goes F P r r') (hok : AllOk r') : AllOk r := by
  obtain ⟨⟨new, hlog, -⟩, -⟩ := h
  intro e he
  exact hok e (by rw [hlog]; exact mem_append_left _ he)

def writes (log : List Effect) : List (Path × List UInt8) :=
  log.filterMap fun
    | .mkdir _ _ => none
    | .write path data _ => some (path, data)

theorem writes_append (a b : List Effect) : writes (a ++ b) = writes a ++ writes b :=
  filterMap_append

def IsMkdir (path : Path) (e : Effect) : Prop := ∃ p ∈ ancestors path, ∃ ok, e = .mkdir p ok

theorem writes_of_isMkdir {log : List Effect} (h : ∀ e ∈ log, IsMkdir path e) :
    writes log = [] := by
  refine filterMap_eq_nil_iff.mpr fun e he => ?_
  obtain ⟨p, -, ok, rfl⟩ := h e he
  rfl

/-- The directory is there, or a call that was to make it went well. -/
def There (F : FileSystem σ) (r : Run σ) (p : Path) : Prop :=
  F.isDir r.fs p = true ∨ .mkdir p true ∈ r.log

theorem There.goes {P : Effect → Prop} {p : Path} (h : There F r p) (hgoes : Goes F P r r') :
    There F r' p :=
  h.imp (hgoes.2 p) fun hmem => hgoes.subset hmem

theorem ensureDirs_ok {ps : List Path} (hok : AllOk (ensureDirs F ps r).2) :
    (ensureDirs F ps r).1 = true ∧ ∀ p ∈ ps, There F (ensureDirs F ps r).2 p := by
  induction ps generalizing r with
  | nil => exact ⟨rfl, by simp⟩
  | cons p ps ih =>
    have hrest : ∀ r, Goes F (fun _ => True) r (ensureDirs F ps r).2 := fun r =>
      ensureDirs_goes fun _ _ => .inr fun _ => trivial
    rw [ensureDirs] at hok ⊢
    split at hok
    · rename_i hdir
      rw [if_pos hdir]
      obtain ⟨htrue, hall⟩ := ih hok
      exact ⟨htrue, forall_mem_cons.mpr ⟨There.goes (.inl hdir) (hrest r), hall⟩⟩
    · rename_i hdir
      rw [if_neg hdir]
      have hlog : .mkdir p (r.mkdir F p).1 ∈ (r.mkdir F p).2.log :=
        mem_append_right _ mem_cons_self
      generalize r.mkdir F p = made at hok hlog
      obtain ⟨ok, r₁⟩ := made
      cases ok with
      | true =>
        obtain ⟨htrue, hall⟩ := ih hok
        exact ⟨htrue, forall_mem_cons.mpr ⟨There.goes (.inr hlog) (hrest r₁), hall⟩⟩
      | false => exact absurd (hok _ hlog) (by simp [Effect.ok])

theorem pkgMkdirP_isMkdir (path : Path) (r : Run σ) :
    Goes F (IsMkdir path) r (pkgMkdirP F path r).2 :=
  pkgMkdirP_goes fun _ p hp => .inr fun _ => ⟨p, hp, _, rfl⟩

theorem pkgMkdirP_ok {m : ℕ} (hroot : rootEnd path = some m) (hlen : path.length < minimafsMaxPath)
    (hok : AllOk (pkgMkdirP F path r).2) : (pkgMkdirP F path r).1 = true ∧
      ∀ p ∈ ancestors path, There F (pkgMkdirP F path r).2 p := by
  have hpos := length_pos_of_rootEnd (by rw [hroot]; rfl : (rootEnd path).isSome)
  have heq : pkgMkdirP F path r = ensureDirs F (ancestors path) r := by
    rw [pkgMkdirP, if_neg (by omega), ancestors, hroot]
    rfl
  rw [heq] at hok ⊢
  exact ensureDirs_ok hok

theorem makeParent_isMkdir (path : Path) (r : Run σ) :
    Goes F (IsMkdir path) r (makeParent F path r).2 :=
  makeParent_goes fun p hp _ => .inr fun _ => ⟨p, hp, _, rfl⟩

theorem makeParent_ok (h0 : (0 : UInt8) ∉ path) (hlen : path.length < minimafsMaxPath)
    (hok : AllOk (makeParent F path r).2) : (makeParent F path r).1 = true := by
  rw [makeParent] at hok ⊢
  split at hok
  · rfl
  · rename_i parent hparent
    obtain ⟨hle, m, hroot⟩ := rootEnd_parent h0 hparent
    exact (pkgMkdirP_ok hroot (by omega) hok).1

/-- The calls for one item: directories on its path, and the file itself. -/
def ItemCall (targetDir : Path) (item : ZipItem) (content : List UInt8) (e : Effect) : Prop :=
  IsMkdir (targetDir ++ slash :: item.relName) e ∨
    item.isDir = false ∧ ∃ ok, e = .write (targetDir ++ slash :: item.relName) content ok

theorem Goes.mono {P Q : Effect → Prop} (h : Goes F P r r') (hPQ : ∀ e, P e → Q e) :
    Goes F Q r r' := by
  obtain ⟨⟨new, hlog, hnew⟩, hdir⟩ := h
  exact ⟨⟨new, hlog, fun e he => hPQ e (hnew e he)⟩, hdir⟩

theorem writes_goes (h : Goes F (IsMkdir path) r r') : writes r'.log = writes r.log := by
  obtain ⟨⟨new, hlog, hnew⟩, -⟩ := h
  rw [hlog, writes_append, writes_of_isMkdir hnew, append_nil]

theorem recreateItem_goes (targetDir : Path) (item : ZipItem) (content : List UInt8) (r : Run σ) :
    Goes F (ItemCall targetDir item content) r (recreateItem F targetDir item content r).2 := by
  rw [recreateItem]
  split
  · exact (pkgMkdirP_isMkdir _ r).mono fun e he => .inl he
  · rename_i hdir
    have hmade := (makeParent_isMkdir (F := F) (targetDir ++ slash :: item.relName) r).mono
      fun e he => (.inl he : ItemCall targetDir item content e)
    generalize makeParent F (targetDir ++ slash :: item.relName) r = made at hmade
    obtain ⟨ok, r₁⟩ := made
    dsimp only
    split
    · exact hmade.trans ⟨⟨_, rfl, by simp [hdir]⟩, F.isDir_write _ _ _⟩
    · exact hmade

def files (targetDir : Path) (items : List (ZipItem × List UInt8)) : List (Path × List UInt8) :=
  items.filterMap fun (item, content) =>
    if item.isDir then none else some (targetDir ++ slash :: item.relName, content)

section Recreate

variable {targetDir : Path} {m : ℕ} (hroot : rootEnd targetDir = some m)
  (h0 : (0 : UInt8) ∉ targetDir)

include hroot h0 in
theorem recreateItem_ok {item : ZipItem} {content : List UInt8}
    (hname : (0 : UInt8) ∉ item.relName)
    (hfit : targetDir.length + 1 + item.relName.length < minimafsMaxPath)
    (hok : AllOk (recreateItem F targetDir item content r).2) :
    (recreateItem F targetDir item content r).1 = true ∧
      writes (recreateItem F targetDir item content r).2.log =
        writes r.log ++ files targetDir [(item, content)] ∧
      (item.isDir = true → There F (recreateItem F targetDir item content r).2
        (targetDir ++ slash :: item.relName)) := by
  have hlen : (targetDir ++ slash :: item.relName).length < minimafsMaxPath := by
    rw [length_append, length_cons]
    omega
  have h0' : (0 : UInt8) ∉ targetDir ++ slash :: item.relName := by
    rw [mem_append, mem_cons]
    exact fun h => h.elim h0 fun h => h.elim (by decide) hname
  have hroot' := rootEnd_append (q := slash :: item.relName) hroot
  rw [recreateItem] at hok ⊢
  rcases hdir : item.isDir with _ | _
  · rw [hdir] at hok
    have hmkdir := makeParent_isMkdir (F := F) (targetDir ++ slash :: item.relName) r
    have hmade := makeParent_ok (F := F) (r := r) h0' hlen
    generalize makeParent F (targetDir ++ slash :: item.relName) r = made at hmkdir hmade hok
    obtain ⟨ok, r₁⟩ := made
    cases ok with
    | false => exact absurd (hmade hok) (by simp)
    | true =>
      have hwrite := hok (.write (targetDir ++ slash :: item.relName) content
        (F.writeFileSegments r₁.fs (targetDir ++ slash :: item.relName) content).1)
        (mem_append_right _ mem_cons_self)
      refine ⟨hwrite, ?_, by simp⟩
      show writes (r₁.log ++ [_]) = _
      rw [writes_append, writes_goes hmkdir]
      simp [writes, files, hdir]
  · rw [hdir] at hok
    obtain ⟨htrue, hall⟩ := pkgMkdirP_ok hroot' hlen hok
    refine ⟨htrue, ?_, fun _ => hall _ (self_mem_ancestors hroot)⟩
    show writes (pkgMkdirP F (targetDir ++ slash :: item.relName) r).2.log = _
    rw [writes_goes (pkgMkdirP_isMkdir _ r)]
    simp [files, hdir]

theorem recreateAll_goes (targetDir : Path) (items : List (ZipItem × List UInt8)) (u : Unzipped σ) :
    Goes F (fun e => ∃ x ∈ items, ItemCall targetDir x.1 x.2 e) u.run
      (recreateAll F targetDir items u).run := by
  induction items generalizing u with
  | nil => exact Goes.refl F _ _
  | cons x items ih =>
    obtain ⟨item, content⟩ := x
    have hstep := (recreateItem_goes (F := F) targetDir item content u.run).mono
      fun e he => (⟨(item, content), mem_cons_self, he⟩ :
        ∃ x ∈ (item, content) :: items, ItemCall targetDir x.1 x.2 e)
    rw [recreateAll]
    generalize recreateItem F targetDir item content u.run = made at hstep
    obtain ⟨ok, r₁⟩ := made
    have hrest := (ih (u.count ok r₁)).mono
      fun e he => (⟨he.choose, mem_cons_of_mem _ he.choose_spec.1, he.choose_spec.2⟩ :
        ∃ x ∈ (item, content) :: items, ItemCall targetDir x.1 x.2 e)
    rw [Unzipped.run_count] at hrest
    exact hstep.trans hrest

/-- The items are there: every one was installed, exactly their files were written, and their
directories are there or were made. -/
structure Recreated (F : FileSystem σ) (targetDir : Path) (items : List (ZipItem × List UInt8))
    (u u' : Unzipped σ) : Prop where
  ok : u'.ok = u.ok
  installed : u'.installed = u.installed + items.length
  failed : u'.failed = u.failed
  files : writes u'.run.log = writes u.run.log ++ files targetDir items
  dirs : ∀ x ∈ items, x.1.isDir = true → There F u'.run (targetDir ++ slash :: x.1.relName)

include hroot h0 in
theorem recreateAll_ok {items : List (ZipItem × List UInt8)} {u : Unzipped σ}
    (hitems : ∀ x ∈ items, (0 : UInt8) ∉ x.1.relName ∧
      targetDir.length + 1 + x.1.relName.length < minimafsMaxPath)
    (hok : AllOk (recreateAll F targetDir items u).run) :
    Recreated F targetDir items u (recreateAll F targetDir items u) := by
  induction items generalizing u with
  | nil => exact ⟨rfl, rfl, rfl, by simp [recreateAll, Pkg.files], by simp⟩
  | cons x items ih =>
    obtain ⟨item, content⟩ := x
    obtain ⟨hitem, hitems⟩ := forall_mem_cons.mp hitems
    rw [recreateAll] at hok ⊢
    rcases hmk : recreateItem F targetDir item content u.run with ⟨ok, r₁⟩
    rw [hmk] at hok
    dsimp only at hok ⊢
    have hgoes := recreateAll_goes (F := F) targetDir items (u.count ok r₁)
    rw [Unzipped.run_count] at hgoes
    have hall : AllOk r₁ := hgoes.allOk hok
    have hstep := recreateItem_ok (F := F) (r := u.run) hroot h0 hitem.1 hitem.2
      (by rw [hmk]; exact hall)
    rw [hmk] at hstep
    obtain ⟨htrue, hwrites, hdir⟩ := hstep
    dsimp only at htrue hwrites hdir
    subst htrue
    have hrest := ih hitems hok
    refine ⟨hrest.ok, ?_, hrest.failed, ?_, forall_mem_cons.mpr ⟨fun h => ?_, hrest.dirs⟩⟩
    · rw [hrest.installed, length_cons]
      show u.installed + 1 + items.length = _
      omega
    · rw [hrest.files, Unzipped.run_count, hwrites, append_assoc]
      congr 1
      rw [Pkg.files, Pkg.files, Pkg.files, ← filterMap_append]
      rfl
    · exact (hdir h).goes hgoes

end Recreate

/-! ## What is collected -/

def relJoin (rel name : Path) : Path := if rel ≠ [] then rel ++ slash :: name else name

def pathJoin (dir name : Path) : Path :=
  if dir.getLast? = some slash then dir ++ name else dir ++ slash :: name

/-- The files and directories that a path stands for, with their relative names in full. -/
inductive Archived (F : FileSystem σ) (fs : σ) (source : Path) : Path → Path → Bool → Prop
  | file (h : F.isDir fs source = false) : Archived F fs source (pkgBasename source) source false
  | top {e : DirEntry} (h : F.isDir fs source = true) (he : e ∈ F.listDir fs source) :
      Archived F fs source e.name (pathJoin source e.name) e.isDir
  | child {rel full : Path} {e : DirEntry} (h : Archived F fs source rel full true)
      (he : e ∈ F.listDir fs full) :
      Archived F fs source (relJoin rel e.name) (pathJoin full e.name) e.isDir

variable {fs : σ} {source name : Path} {rows : List Row} {size : ℕ}

theorem Archived.zero_notMem (h : Archived F fs source rel full d) (h0 : (0 : UInt8) ∉ source) :
    (0 : UInt8) ∉ rel := by
  induction h with
  | file _ =>
    rw [pkgBasename]
    split
    · rename_i last hlast
      obtain ⟨a, rfl, -, -⟩ := strrchr_eq_some hlast
      exact fun hmem => h0 (mem_append_right _ (mem_of_mem_tail hmem))
    · exact h0
  | @top e _ _ => exact e.zero_notMem
  | @child rel full e _ _ ih =>
    rw [relJoin]
    split
    · rw [mem_append, mem_cons]
      exact fun h => h.elim ih fun h => h.elim (by decide) e.zero_notMem
    · exact e.zero_notMem

theorem childName_eq (h : (relJoin rel name).length < mpkgNameSize) :
    childName rel name = relJoin rel name := by
  have htake : childName rel name = (relJoin rel name).take (mpkgNameSize - 1) := by
    rw [childName, relJoin]
    split <;> simp [snprintf_eq, Piece.text]
  rw [htake, take_of_length_le (Nat.le_sub_one_of_lt h)]

theorem childPath_eq {dir : Path} (h : (childPath dir name).length < fullPathSize) :
    childPath dir name = pathJoin dir name := by
  have htake : childPath dir name = (pathJoin dir name).take (minimafsMaxPath - 1) := by
    rw [childPath, pathJoin]
    split <;> simp [snprintf_eq, Piece.text]
  rw [htake] at h ⊢
  unfold minimafsMaxPath fullPathSize at *
  rw [length_take] at h
  exact take_of_length_le (by omega)

theorem pkgZipAddItem_spec (h : pkgZipAddItem items rel full d = some items') :
    full.length < fullPathSize ∧ items'.length ≤ pkglibZipMaxItems ∧
      items' = items ++ [⟨rel.take (mpkgNameSize - 1), full, d⟩] := by
  rw [pkgZipAddItem] at h
  split at h
  · simp at h
  split at h
  · simp at h
  cases h
  rw [take_of_length_le (l := full) (by omega)]
  exact ⟨by omega, by simp; omega, rfl⟩

/-- The items of a walk are files and directories of the tree under their own names. -/
structure Collected (F : FileSystem σ) (fs : σ) (source : Path) (items : List ZipItem) : Prop where
  length : items.length ≤ pkglibZipMaxItems
  archived : ∀ it ∈ items, Archived F fs source it.relName it.fullPath it.isDir

section Collect

variable {fs : σ} {source : Path}
  (hnames : ∀ rel full d, Archived F fs source rel full d → rel.length < mpkgNameSize)

include hnames in
theorem Collected.add (h : Collected F fs source items) (hnew : Archived F fs source rel full d)
    (hadd : pkgZipAddItem items rel full d = some items') : Collected F fs source items' := by
  obtain ⟨-, hlen, rfl⟩ := pkgZipAddItem_spec hadd
  have hrel := hnames _ _ _ hnew
  rw [take_of_length_le (by unfold mpkgNameSize at *; omega)] at hlen ⊢
  refine ⟨hlen, fun it hit => ?_⟩
  rcases mem_append.mp hit with hit | hit
  · exact h.archived it hit
  · obtain rfl := mem_singleton.mp hit
    exact hnew

include hnames in
theorem pkgZipCollectDir_collected {depth : ℕ} {dir : Path} (hdir : ∀ e ∈ F.listDir fs dir,
      Archived F fs source (relJoin rel e.name) (pathJoin dir e.name) e.isDir)
    (h : Collected F fs source items)
    (hrun : pkgZipCollectDir F fs depth dir rel items = some items') :
    Collected F fs source items' := by
  induction depth generalizing dir rel items items' with
  | zero => simp [pkgZipCollectDir] at hrun
  | succ depth ih =>
    rw [pkgZipCollectDir] at hrun
    have hentries : ∀ e ∈ (F.listDir fs dir).take minimafsMaxRootEntries,
        Archived F fs source (relJoin rel e.name) (pathJoin dir e.name) e.isDir :=
      fun e he => hdir e (mem_of_mem_take he)
    generalize (F.listDir fs dir).take minimafsMaxRootEntries = entries at hrun hentries
    induction entries generalizing items with
    | nil =>
      cases hrun
      exact h
    | cons e entries ihe =>
      obtain ⟨he, hentries⟩ := forall_mem_cons.mp hentries
      obtain ⟨items₂, hstep, hrun⟩ := Option.bind_eq_some_iff.mp hrun
      refine ihe ?_ hrun hentries
      obtain ⟨items₁, hadd, hstep⟩ := Option.bind_eq_some_iff.mp hstep
      rw [childName_eq (hnames _ _ _ he)] at hadd hstep
      have hpath := childPath_eq (pkgZipAddItem_spec hadd).1
      rw [hpath] at hadd hstep
      have hadded := h.add hnames he hadd
      split at hstep
      · rename_i hisDir
        rw [hisDir] at he
        exact ih (fun e' he' => Archived.child he he') hadded hstep
      · cases hstep
        exact hadded

include hnames in
theorem zipItems_collected (h : zipItems F fs source = some items) :
    items ≠ [] ∧ Collected F fs source items := by
  have hnil : Collected F fs source [] := ⟨by simp, by simp⟩
  rw [zipItems] at h
  split at h
  · rename_i hdir
    obtain ⟨items', hrun, h⟩ := Option.bind_eq_some_iff.mp h
    split at h
    · simp at h
    · rename_i hne
      cases h
      exact ⟨hne, pkgZipCollectDir_collected hnames
        (fun e he => by simpa [relJoin] using Archived.top hdir he) hnil hrun⟩
  · rename_i hdir
    refine ⟨?_, hnil.add hnames (Archived.file (by simpa using hdir)) h⟩
    obtain ⟨-, -, rfl⟩ := pkgZipAddItem_spec h
    simp

end Collect

/-! ## The round trip -/

theorem pkglibZip_write {heap : ZipHeap} {maxChain : ℕ} {algorithm : Option (List UInt8)}
    {out : Path} {archive : List UInt8} {ok : Bool}
    (h : .write out archive ok ∈ (pkglibZip F heap maxChain fs source algorithm).2.log) :
    ∃ useLzss items pairs rows size, zipItems F fs source = some items ∧
      itemPayloads F heap maxChain fs useLzss 0 items = some pairs ∧
      placeRows pairs (entryBase items.length) = some (rows, size) ∧
      archive = buildArchive rows size := by
  rw [pkglibZip] at h
  split at h
  · simp at h
  rename_i rows size hrows
  split at h
  · simp at h
  have harchive : archive = buildArchive rows size := by
    have := mem_singleton.mp h
    exact (Effect.write.inj this).2.1
  rw [zipRows] at hrows
  split at hrows
  · simp at hrows
  obtain ⟨useLzss, -, hrows⟩ := Option.bind_eq_some_iff.mp hrows
  obtain ⟨items, hitems, hrows⟩ := Option.bind_eq_some_iff.mp hrows
  split at hrows
  · simp at hrows
  obtain ⟨pairs, hpairs, hrows⟩ := Option.bind_eq_some_iff.mp hrows
  split at hrows
  · simp at hrows
  exact ⟨useLzss, items, pairs, rows, size, hitems, hpairs, hrows, harchive⟩

theorem pkgLoadArchive_buildArchive (h : Placed rows (entryBase rows.length) size)
    (hopen : F.openRead fs path =
      some ⟨UInt32.ofNat (buildArchive rows size).length, buildArchive rows size⟩) :
    pkgLoadArchive F true fs path = some (some (buildArchive rows size)) := by
  have hsize : (UInt32.ofNat (buildArchive rows size).length).toNat = size := by
    rw [length_buildArchive h, toNat_ofNat32 h.lt]
  have hle : 16 ≤ size := by
    have := h.le
    unfold entryBase mpkgHeaderSize at this
    omega
  have hmagic := readRange_buildArchive h (mem_cons_self : (0, mpkgMagic) ∈ archivePatches rows)
  have hversion : pkgReadU32 (buildArchive rows size) 8 = some mpkgVersion :=
    pkgReadU32_buildArchive h (mem_cons_of_mem _ mem_cons_self)
  rw [pkgLoadArchive, hopen, loadOpened]
  dsimp only
  rw [hsize, length_buildArchive h, if_neg (by simp; exact hle), hmagic, hversion]
  simp

theorem pkgValidateEntryTable_buildArchive (h : Placed rows (entryBase rows.length) size)
    (hlen : rows.length < 2 ^ 32) :
    pkgValidateEntryTable (buildArchive rows size) = some rows.length := by
  have hcount : pkgReadU32 (buildArchive rows size) 12 = some (UInt32.ofNat rows.length) :=
    pkgReadU32_buildArchive h
      (mem_cons_of_mem _ (mem_cons_of_mem _ mem_cons_self))
  have hle := h.le
  unfold entryBase at hle
  rw [pkgValidateEntryTable, hcount, Option.bind_eq_bind, Option.bind_some, toNat_ofNat32 hlen,
    length_buildArchive h, if_neg (by omega)]
  rfl

/-- What an archive of `pkglib_zip` was laid out from. -/
structure ZippedFrom (F : FileSystem σ) (fs : σ) (source : Path) (items : List ZipItem)
    (rows : List Row) (size : ℕ) : Prop where
  items_eq : zipItems F fs source = some items
  items_ne : items ≠ []
  archived : ∀ it ∈ items, Archived F fs source it.relName it.fullPath it.isDir
  rows_eq : rows.map Row.item = items
  few : rows.length < 2 ^ 32
  placed : Placed rows (entryBase rows.length) size
  ok : ∀ row ∈ rows, RowOk F fs row

theorem pkglibZip_zippedFrom {heap : ZipHeap} {maxChain : ℕ} {algorithm : Option (List UInt8)}
    {out : Path} {archive : List UInt8} (hsource : (0 : UInt8) ∉ source)
    (hnames : ∀ rel full d, Archived F fs source rel full d → rel.length < mpkgNameSize)
    (hzip : .write out archive true ∈ (pkglibZip F heap maxChain fs source algorithm).2.log) :
    ∃ items rows size, archive = buildArchive rows size ∧
      ZippedFrom F fs source items rows size := by
  obtain ⟨useLzss, items, pairs, rows, size, hitems, hpairs, hrows, harchive⟩ := pkglibZip_write hzip
  obtain ⟨hne, hcollected⟩ := zipItems_collected hnames hitems
  have hcount := hcollected.length
  unfold pkglibZipMaxItems at hcount
  obtain ⟨hfst, hcarries⟩ := itemPayloads_spec hpairs
  obtain ⟨hmap, hplaced⟩ := placeRows_spec (by
    unfold entryBase mpkgHeaderSize mpkgEntrySize
    omega) hrows
  have hrowItems : rows.map Row.item = items := by
    rw [← hfst, ← hmap, map_map]
    rfl
  have hlen : rows.length = items.length := by rw [← hrowItems, length_map]
  rw [← hlen] at hplaced
  refine ⟨items, rows, size, harchive, hitems, hne, hcollected.archived, hrowItems, by omega,
    hplaced, fun row hrow => ?_⟩
  have harchived := hcollected.archived row.item (by rw [← hrowItems]; exact mem_map_of_mem hrow)
  exact ⟨hnames _ _ _ harchived, harchived.zero_notMem hsource,
    hcarries (row.item, row.payload) (by rw [← hmap]; exact mem_map_of_mem hrow)⟩

/-- The run has brought the items back, and otherwise only made directories on the way to them. -/
def RoundTrip (F : FileSystem σ) (fs : σ) (items : List ZipItem) (targetDir : Path) {τ : Type}
    (G : FileSystem τ) (fs' : τ) (u : Unzipped τ) : Prop :=
  Recreated G targetDir (items.map fun it => (it, contentOf F fs it)) ⟨true, 0, 0, ⟨fs', []⟩⟩ u ∧
    ∀ e ∈ u.run.log, IsMkdir targetDir e ∨ ∃ it ∈ items, ItemCall targetDir it (contentOf F fs it) e

section RoundTrip

variable {targetDir : Path} {τ : Type} {G : FileSystem τ} {fs' : τ} {archivePath : Path}
  {mem : ℕ → EntryMem} (hz : ZippedFrom F fs source items rows size)
  (hopen : G.openRead fs' archivePath =
    some ⟨UInt32.ofNat (buildArchive rows size).length, buildArchive rows size⟩)

include hz hopen in
theorem pkglibUnzip_zipped (mem : ℕ → EntryMem) (targetDir : Path) :
    pkglibUnzip G true mem fs' archivePath targetDir =
      if (makeTarget G targetDir fs').1 = false then
        some ⟨false, 0, 0, (makeTarget G targetDir fs').2⟩
      else unzipEntries G mem (buildArchive rows size) targetDir rows.length 0
        ⟨true, 0, 0, (makeTarget G targetDir fs').2⟩ :=
  pkglibUnzip_eq (pkgLoadArchive_buildArchive hz.placed hopen)
    (pkgValidateEntryTable_buildArchive hz.placed hz.few)
    fun hzero => hz.items_ne (by rw [← hz.rows_eq, length_eq_zero_iff.mp hzero]; rfl)

include hz hopen in
theorem unzip_zip_of_extractable (htarget : (0 : UInt8) ∉ targetDir)
    (hroot : (rootEnd targetDir).isSome) (hsafe : ∀ it ∈ items, it.Extractable targetDir)
    (hmem : ∀ i, (mem i).decompressed = true ∧ (mem i).textBuf.isSome) :
    ∃ u, pkglibUnzip G true mem fs' archivePath targetDir = some u ∧
      (AllOk u.run → RoundTrip F fs items targetDir G fs' u) := by
  obtain ⟨m, hm⟩ := Option.isSome_iff_exists.mp hroot
  have htargetLen : targetDir.length < minimafsMaxPath := by
    obtain ⟨it, hit⟩ := exists_mem_of_ne_nil items hz.items_ne
    have := (hsafe it hit).2
    omega
  have hmkdir : Goes G (IsMkdir targetDir) ⟨fs', []⟩ (makeTarget G targetDir fs').2 := by
    rw [makeTarget]
    split
    · exact Goes.refl G _ _
    · exact pkgMkdirP_isMkdir _ _
  have hmade : AllOk (makeTarget G targetDir fs').2 → (makeTarget G targetDir fs').1 = true := by
    rw [makeTarget]
    split
    · exact fun _ => rfl
    · exact fun hok => (pkgMkdirP_ok hm htargetLen hok).1
  have hrun := pkglibUnzip_zipped hz hopen mem targetDir
  rw [unzipEntries_rows hmem hz.placed hz.ok (fun row hrow => hsafe _ (by
    rw [← hz.rows_eq]; exact mem_map_of_mem hrow)) (Nat.zero_add _), drop_zero] at hrun
  have hitems : (rows.map fun row => (row.item, contentOf F fs row.item)) =
      items.map fun it => (it, contentOf F fs it) := by
    rw [← hz.rows_eq, map_map]
    rfl
  rw [hitems] at hrun
  generalize makeTarget G targetDir fs' = made at hrun hmkdir hmade
  obtain ⟨ok, r⟩ := made
  cases ok with
  | false => exact ⟨_, hrun, fun hok => absurd (hmade hok) (by simp)⟩
  | true =>
    refine ⟨_, hrun, fun hok => ?_⟩
    have hrec := recreateAll_ok hm htarget (fun x hx => by
      obtain ⟨it, hit, rfl⟩ := mem_map.mp hx
      rw [← hz.rows_eq] at hit
      obtain ⟨row, hrow, rfl⟩ := mem_map.mp hit
      exact ⟨(hz.ok row hrow).zero_notMem, (hsafe _ (by
        rw [← hz.rows_eq]; exact mem_map_of_mem hrow)).2⟩) hok
    have hwrites : writes r.log = [] := writes_goes hmkdir
    refine ⟨⟨hrec.ok, hrec.installed, hrec.failed, ?_, hrec.dirs⟩, fun e he => ?_⟩
    · rw [hrec.files, hwrites]
      rfl
    · obtain ⟨⟨new, hlog, hnew⟩, -⟩ := hmkdir
      obtain ⟨⟨new', hlog', hnew'⟩, -⟩ := recreateAll_goes targetDir
        (items.map fun it => (it, contentOf F fs it)) ⟨true, 0, 0, r⟩
      rw [hlog', hlog] at he
      rcases mem_append.mp he with he | he
      · exact .inl (hnew e (by simpa using he))
      · obtain ⟨x, hx, hcall⟩ := hnew' e he
        obtain ⟨it, hit, rfl⟩ := mem_map.mp hx
        exact .inr ⟨it, hit, hcall⟩

end RoundTrip

/-- A file system without directories, on which every call goes well: an item comes back only if
its name is accepted and its path has room. -/
theorem extractable_of_roundTrip {targetDir archivePath : Path} {mem : ℕ → EntryMem}
    {u : Unzipped Unit} {file : Opened} (hz : ZippedFrom F fs source items rows size)
    (hfile : file = ⟨UInt32.ofNat (buildArchive rows size).length, buildArchive rows size⟩)
    (hrun : pkglibUnzip (still (fun _ => false) (some file)) true mem () archivePath targetDir = some u)
    (hback : AllOk u.run → RoundTrip F fs items targetDir (still (fun _ => false) (some file)) () u) :
    ∀ it ∈ items, it.Extractable targetDir := by
  obtain ⟨u', hrun', hgoes⟩ := pkglibUnzip_goes (F := still (fun _ => false) (some file))
    (P := fun e => e.ok = true ∧ e.path.length < minimafsMaxPath) true mem () archivePath targetDir
    fun archive n _ _ _ hmake => ⟨fun _ p hp => .inr fun _ => ⟨rfl, Nat.lt_of_le_of_lt
      (length_le_of_mem_ancestors hp) (hmake.resolve_left Bool.false_ne_true).1⟩, fun i _ _ =>
        ⟨fun p hp _ => .inr fun _ => ⟨rfl, Nat.lt_of_le_of_lt (length_le_of_mem_ancestors hp)
          length_fullPath_lt⟩, fun _ _ _ => ⟨rfl, length_fullPath_lt⟩⟩⟩
  obtain rfl : u' = u := Option.some.inj (hrun'.symm.trans hrun)
  have hlog := hgoes.forall_mem (r := ⟨(), []⟩)
  obtain ⟨hrec, -⟩ := hback fun e he => (hlog e he).1
  have hok : u'.ok = true := hrec.ok
  have hfailed : u'.failed = 0 := hrec.failed
  rw [pkglibUnzip_zipped hz (congrArg some hfile)] at hrun
  split at hrun
  · cases hrun
    simp at hok
  intro it hit
  have hitem : (it, contentOf F fs it) ∈ items.map fun it => (it, contentOf F fs it) :=
    mem_map_of_mem (f := fun it => (it, contentOf F fs it)) hit
  constructor
  · -- an unsafe name is counted as failed
    rw [← hz.rows_eq] at hit
    obtain ⟨row, hrow, rfl⟩ := mem_map.mp hit
    obtain ⟨k, hk, rfl⟩ := getElem_of_mem hrow
    obtain ⟨r, ok, r', hentry, hcount, -⟩ := unzipEntries_entry hrun (Nat.zero_le k) (by omega)
    rw [entryOf_buildArchive hz.placed (List.getElem?_eq_getElem hk) (hz.ok _ hrow).short
      (hz.ok _ hrow).zero_notMem, pkgExtractEntry] at hentry
    by_contra hsafe
    rw [if_pos (by simpa using hsafe)] at hentry
    have hzero := hcount (congrArg Prod.fst (Option.some.inj hentry)).symm
    rw [hfailed] at hzero
    simp at hzero
  · -- the item's own path is in the log, and the paths there have room
    have hpath : ∃ e ∈ u'.run.log, e.path = targetDir ++ slash :: it.relName := by
      cases hdir : it.isDir with
      | true => exact ⟨_, (hrec.dirs _ hitem hdir).resolve_left Bool.false_ne_true, rfl⟩
      | false =>
        have hmem : (targetDir ++ slash :: it.relName, contentOf F fs it) ∈ writes u'.run.log := by
          rw [hrec.files]
          exact mem_append_right _ (mem_filterMap.mpr ⟨_, hitem, by simp [hdir]⟩)
        obtain ⟨e, he, hwrite⟩ := mem_filterMap.mp hmem
        cases e with
        | mkdir => simp at hwrite
        | write path data ok => exact ⟨_, he, (Prod.mk.inj (Option.some.inj hwrite)).1⟩
    obtain ⟨e, he, heq⟩ := hpath
    have := (hlog e he).2
    rw [heq, length_append, length_cons] at this
    omega

/-- No memory request fails. -/
def enough : ℕ → EntryMem := fun _ => ⟨true, some fun _ => 0⟩

/-- **Round trip.** An archive that `pkglib_zip` has written is extracted in full, on every file
system on which no call fails, exactly when the unzip path accepts the names of its items and the
paths in the target directory fit their buffer. All names are shorter than 128 bytes. -/
theorem unzip_zip_iff (F : FileSystem σ) (heap : ZipHeap) (maxChain : ℕ) (fs : σ) (source : Path)
    (algorithm : Option (List UInt8)) (hsource : (0 : UInt8) ∉ source)
    (hnames : ∀ rel full d, Archived F fs source rel full d → rel.length < mpkgNameSize)
    (out : Path) (archive : List UInt8)
    (hzip : .write out archive true ∈ (pkglibZip F heap maxChain fs source algorithm).2.log)
    (archivePath targetDir : Path) (htarget : (0 : UInt8) ∉ targetDir)
    (hroot : (rootEnd targetDir).isSome) :
    ∃ items, zipItems F fs source = some items ∧
      (∀ it ∈ items, Archived F fs source it.relName it.fullPath it.isDir) ∧
      ((∀ (τ : Type) (G : FileSystem τ) fs' mem,
          G.openRead fs' archivePath = some ⟨UInt32.ofNat archive.length, archive⟩ →
          (∀ i, (mem i).decompressed = true ∧ (mem i).textBuf.isSome) →
          ∃ u, pkglibUnzip G true mem fs' archivePath targetDir = some u ∧
            (AllOk u.run → RoundTrip F fs items targetDir G fs' u)) ↔
        ∀ it ∈ items, it.Extractable targetDir) := by
  obtain ⟨items, rows, size, rfl, hz⟩ := pkglibZip_zippedFrom hsource hnames hzip
  refine ⟨items, hz.items_eq, hz.archived, fun hall => ?_, fun hsafe τ G fs' mem hopen hmem =>
    unzip_zip_of_extractable hz hopen htarget hroot hsafe hmem⟩
  obtain ⟨u, hrun, hback⟩ := hall Unit (still (fun _ => false) (some ⟨_, _⟩)) () enough rfl
    fun _ => ⟨rfl, rfl⟩
  exact extractable_of_roundTrip hz rfl hrun hback

/-- Files and directories in a list, the newest first. -/
def ram : FileSystem (List (Path × Option (List UInt8))) where
  fileExists s p := s.any fun x => x.1 = p
  isDir s p := s.contains (p, none)
  openRead s p := (s.findSome? fun x => if x.1 = p then x.2 else none).map fun bytes =>
    ⟨UInt32.ofNat bytes.length, bytes⟩
  listDir _ _ := []
  mkdir s p := (true, (p, none) :: s)
  writeFileSegments s p data := (true, (p, some data) :: s)
  deleteFile s p := (true, s.filter fun x => x.1 ≠ p)
  isDir_mkdir s p q h := by simp at h ⊢; exact .inr h
  isDir_write s p data q h := by simp at h ⊢; exact h

def roomy : ZipHeap := ⟨true, fun _ => true, fun _ _ => true, true, true⟩

/-- Zip a source with these files and extract the archive to `0:/t`. -/
def zipUnzip (fs : List (Path × Option (List UInt8))) (source archive : Path) :
    Option (Unzipped (List (Path × Option (List UInt8)))) :=
  pkglibUnzip ram true enough (pkglibZip ram roomy 8 fs source none).2.fs archive (ascii "0:/t")

def oneFile : List (Path × Option (List UInt8)) := [(ascii "0:/f", some (List.replicate 10 7))]

/-- The archive of a file of ten equal bytes, which are compressed to four. -/
def oneFileArchive : List UInt8 :=
  mpkgMagic ++ [1, 0, 0, 0, 1, 0, 0, 0, 102] ++ List.replicate 127 0 ++
    [0, 0, 0, 0, 1, 0, 0, 0, 10, 0, 0, 0, 4, 0, 0, 0, 164, 0, 0, 0, 1, 7, 0xEE, 0xF6]

theorem unzip_zip_sample :
    ∃ u, zipUnzip oneFile (ascii "0:/f") (ascii "0:/f.mpkg") = some u ∧ u.installed = 1 ∧
      writes u.run.log = [(ascii "0:/t/f", List.replicate 10 7)] := by
  have hlog : (pkglibZip ram roomy 8 oneFile (ascii "0:/f") none).2.log =
      [.write (ascii "0:/f.mpkg") oneFileArchive true] := by decide +kernel
  have hopen : ram.openRead (pkglibZip ram roomy 8 oneFile (ascii "0:/f") none).2.fs
      (ascii "0:/f.mpkg") = some ⟨UInt32.ofNat oneFileArchive.length, oneFileArchive⟩ := by
    decide +kernel
  have hitems : zipItems ram oneFile (ascii "0:/f") =
      some [⟨ascii "f", ascii "0:/f", false⟩] := by decide +kernel
  have hcontent : contentOf ram oneFile ⟨ascii "f", ascii "0:/f", false⟩ = List.replicate 10 7 := by
    decide +kernel
  have hdir : ram.isDir oneFile (ascii "0:/f") = false := by decide +kernel
  have honly : ∀ rel full d, Archived ram oneFile (ascii "0:/f") rel full d →
      rel = ascii "f" ∧ d = false := by
    intro rel full d h
    induction h with
    | file _ => exact ⟨by decide, rfl⟩
    | top h _ => simp [hdir] at h
    | child _ _ ih => simp at ih
  obtain ⟨items, hitems', -, hiff⟩ := unzip_zip_iff ram roomy 8 oneFile (ascii "0:/f") none
    (by decide) (fun rel full d h => by rw [(honly rel full d h).1]; decide) (ascii "0:/f.mpkg")
    oneFileArchive (by rw [hlog]; simp) (ascii "0:/f.mpkg") (ascii "0:/t") (by decide) (by decide)
  obtain rfl : [⟨ascii "f", ascii "0:/f", false⟩] = items :=
    Option.some.inj (hitems.symm.trans hitems')
  obtain ⟨u, hu, hrec⟩ := hiff.mpr (by decide) _ ram _ enough hopen
    fun _ => ⟨rfl, rfl⟩
  have hok : AllOk u.run := by
    have hrun : (zipUnzip oneFile (ascii "0:/f") (ascii "0:/f.mpkg")).map
        (fun u => u.run.log.all Effect.ok) = some true := by decide +kernel
    rw [zipUnzip, hu] at hrun
    exact all_eq_true.mp (Option.some.inj hrun)
  obtain ⟨hrec, -⟩ := hrec hok
  refine ⟨u, hu, hrec.installed, ?_⟩
  rw [hrec.files, map_cons]
  rfl

def dotdotFile : List (Path × Option (List UInt8)) := [(ascii "0:/..", some [1, 2, 3])]

/-- A file that is called `..` is archived and not extracted. -/
theorem dotdot_file_lost : (pkglibZip ram roomy 8 dotdotFile (ascii "0:/..") none).1 = true ∧
    ∃ u, zipUnzip dotdotFile (ascii "0:/..") (ascii "0:/...mpkg") = some u ∧
      u.installed = 0 ∧ u.failed = 1 ∧ writes u.run.log = [] := by
  have hrun : (zipUnzip dotdotFile (ascii "0:/..") (ascii "0:/...mpkg")).map
      (fun u => (u.installed, u.failed, writes u.run.log)) = some (0, 1, []) := by decide +kernel
  obtain ⟨u, hu, heq⟩ := Option.map_eq_some_iff.mp hrun
  obtain ⟨hinstalled, heq⟩ := Prod.mk.inj heq
  obtain ⟨hfailed, hwrites⟩ := Prod.mk.inj heq
  exact ⟨by decide +kernel, u, hu, hinstalled, hfailed, hwrites⟩

end MinimalOS.Pkg
