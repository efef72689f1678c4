import MinimalOS.Minimafs.Descriptor
import MinimalOS.Minimafs.Path
import MinimalOS.Minimafs.Scan

/-!
# Formatting and mounting a volume

`minimafs_format` lays out an empty volume: the descriptor in block 0 and an empty root directory in
block 1. `minimafs_mount` reads the descriptor, checks it against the device and rebuilds the
allocator. The descriptor is a text that holds the name the caller gave, so the volume that is
mounted is the one that was formatted only if the name does not get in the way of the other lines.
-/

namespace MinimalOS.Minimafs

open CString Fs

variable {d d₁ d₂ : Drive} {env : Env}

/-! ## Formatting -/

/-- The size that is used: at most 16 TiB. -/
def formatSize (size : ℕ) : ℕ :=
  if maxBlocks < size / blockSize then maxBlocks * blockSize else size

def formatBlocks (size : ℕ) : ℕ := u32 (formatSize size / blockSize)

/-- The name that is stored: the given one as far as it fits, or else the number of the drive. -/
def formatName (number : ℕ) : Option (List UInt8) → List UInt8
  | some name => strncpy 64 name
  | none => snprintf 64 [.str (uintToStr number)]

def emptyDesc (size number : ℕ) (driveName : Option (List UInt8)) (root : ℕ)
    (created mounted : List UInt8) : StorageDesc where
  magic := minimafsMagic
  driveNumber := number
  driveName := formatName number driveName
  totalSize := formatSize size
  totalBlocks := formatBlocks size
  rootBlock := root
  usedBlocks := 2
  freeBlocks := formatBlocks size - 2
  usedSize := 2 * blockSize
  freeSize := formatSize size - 2 * blockSize
  createdDate := created
  lastMounted := mounted

/-- `minimafs_format` with its drive's slot. The number is not checked before the allocators are
indexed with it. -/
def format (env : Env) (size number : ℕ) (driveName : Option (List UInt8)) : Fs Unit := do
  require (¬ formatBlocks size < 16)
  if maxDrives ≤ number then crashed
  else
    modify fun d =>
      { d with alloc := blockAllocInit d.alloc (formatBlocks size), driveNumber := number }
    request env
    let root ← allocRun env 1
    require (root ≠ 0)
    markUsed env 0 1
    markUsed env root 1
    let created ← now env
    let mounted ← now env
    modify fun d => { d with storageDesc := emptyDesc size number driveName root created mounted }
    writeStorageDesc env
    request env
    writeBlocks env root [Block.ofBytes rootText]

/-! ## Mounting -/

/-- The test read of `minimafs_self_test_drive`, once for each drive. -/
def selfTest (env : Env) : Fs Unit := do
  let d ← get
  if d.selfTestDone then pure ()
  else
    let _ ← readBlock env 0
    modify fun d => { d with selfTestDone := true }

/-- The name a drive gets: the one of its descriptor, or else its number. -/
def mountName (number : ℕ) (sd : StorageDesc) : List UInt8 :=
  if strncpy 64 sd.driveName = [] then uintToStr number else strncpy 64 sd.driveName

/-- The drive with its descriptor, its allocator still to be filled. -/
def Drive.attached (d : Drive) (number : ℕ) (sd : StorageDesc) : Drive :=
  { d with
    storageDesc := sd
    driveNumber := number
    driveName := mountName number sd
    alloc := blockAllocInit d.alloc sd.totalBlocks }

def Drive.inUse (d : Drive) (date : List UInt8) : Drive :=
  { d with
    storageDesc := { d.storageDesc with lastMounted := date }
    mounted := true
    deviceMounted := true }

def attach (env : Env) (number : ℕ) (sd : StorageDesc) : Fs ℕ := do
  modify fun d => d.attached number sd
  markUsed env 0 1
  markUsed env sd.rootBlock 1
  scanDirectory env env.fuel sd.rootBlock
  refreshStorageDesc env
  let date ← now env
  modify fun d => d.inUse date
  pure 1

/-- The checks of `minimafs_mount`. -/
def mountDesc (env : Env) (number : ℕ) (sd : StorageDesc) : Fs ℕ := do
  let d ← get
  if sd.magic ≠ minimafsMagic ∨ sd.rootBlock = 0 ∨ sd.totalBlocks = 0 then pure 5
  else if sd.totalBlocks ≤ sd.rootBlock then pure 4
  else if d.deviceSize < sd.totalBlocks * blockSize then pure 5
  else attach env number sd

/-- `minimafs_mount` with its return codes; `1` is success. -/
def mount (env : Env) (number : ℕ) : Fs ℕ := do
  let d ← get
  if maxDrives ≤ number then pure 0
  else if d.mounted ∨ d.deviceMounted then pure 2
  else
    match ← attempt (selfTest env) with
    | none => pure 0
    | some _ =>
      match ← attempt (request env) with
      | none => pure 0
      | some _ =>
        match ← attempt (readStorageDesc env) with
        | none => pure 3
        | some sd => mountDesc env number sd

/-! ## A formatted volume -/

theorem formatSize_le (size : ℕ) : formatSize size ≤ size := by
  unfold formatSize
  split_ifs with h
  · have : (maxBlocks + 1) * blockSize ≤ size := (Nat.le_div_iff_mul_le (by decide)).mp h
    rw [Nat.add_mul] at this
    omega
  · exact le_rfl

theorem formatBlocks_lt (size : ℕ) : formatBlocks size < 2 ^ 32 := Nat.mod_lt _ (by decide)

theorem length_getDatetime (dt : Datetime) : (getDatetime dt).length = 9 := by
  have hall : ∀ n < 256, (monthNameShort (UInt8.ofNat n)).length = 3 := by decide +kernel
  have hmonth := hall dt.month.toNat dt.month.toNat_lt
  rw [UInt8.ofNat_toNat] at hmonth
  simp [getDatetime, hmonth]

section Format

variable {size number : ℕ} {name created mounted : List UInt8}

theorem fits_emptyDesc (hcreated : created.length = 9) (hmounted : mounted.length = 9) :
    (emptyDesc size number (some name) 1 created mounted).Fits := by
  refine ⟨?_⟩
  simp only [List.forall_mem_cons]
  refine ⟨?_, show 0 < 64 by decide, show 0 < 64 by decide, ?_, ?_, nofun⟩
  · show (strncpy 64 name).length < 64
    rw [strncpy, List.length_take]
    omega
  · show created.length < 64
    omega
  · show mounted.length < 64
    omega

/-- What a format leaves. -/
structure Formatted (size number : ℕ) (name : List UInt8) (d d₁ : Drive) : Prop where
  desc : ∃ created mounted : List UInt8, created.length = 9 ∧ mounted.length = 9 ∧
    d₁.storageDesc = emptyDesc size number (some name) 1 created mounted
  block : d₁.disk 0 = Block.ofBytes (printStorageDesc d₁.storageDesc)
  root : d₁.disk 1 = Block.ofBytes rootText
  mounted : d₁.mounted = d.mounted
  deviceMounted : d₁.deviceMounted = d.deviceMounted
  deviceSize : d₁.deviceSize = d.deviceSize

theorem markUsed_run (env : Env) (block count : ℕ) (d : Drive) :
    ∃ a t, markUsed env block count d = (.ok ⟨⟩, d.rebooked a t) := ⟨_, _, rfl⟩

theorem allocRun_init (env : Env) (hext : d.alloc.ext = []) (htotal : 1 < d.alloc.totalBlocks) :
    ∃ a t, allocRun env 1 d = (.ok 1, d.rebooked a t) := by
  have hgap : findGap d.alloc.totalBlocks 1 1 d.alloc.ext = some 1 := by
    rw [hext, findGap, if_pos ⟨htotal, by omega⟩]
  exact ⟨_, _, allocRun_of_gap env one_pos hgap⟩

theorem Drive.refolded_self (d : Drive) (block : ℕ) (text : List UInt8) :
    (d.refolded block text).disk block = Block.ofBytes text := Function.update_self _ _ _

theorem writeText_run (henv : env.Ok) {block : ℕ} (hblock : block < 2 ^ 32) (text : List UInt8)
    (d : Drive) :
    ∃ t, writeBlocks env block [Block.ofBytes text] d = (.ok ⟨⟩, (d.refolded block text).later t) := by
  obtain ⟨t, ht⟩ := writeBlocks_run henv.writeOk block [Block.ofBytes text]
    (by rw [List.length_singleton]; omega) d
  exact ⟨t, by rw [ht, Drive.store_single]; rfl⟩

theorem writeStorageDesc_fits (henv : env.Ok) (hfits : d.storageDesc.Fits) :
    ∃ t, writeStorageDesc env d =
      (.ok ⟨⟩, (d.refolded 0 (printStorageDesc d.storageDesc)).later t) := by
  obtain ⟨t, ht⟩ := writeText_run henv (show 0 < 2 ^ 32 by decide) (printStorageDesc d.storageDesc) d
  refine ⟨t, ?_⟩
  unfold writeStorageDesc
  rw [bind_ok get_run, bind_ok (require_true hfits.length_lt), ht]

theorem format_run (henv : env.Ok) (hsize : 16 ≤ formatBlocks size) (hnumber : number < maxDrives)
    (name : List UInt8) (d : Drive) :
    ∃ d₁, format env size number (some name) d = (.ok ⟨⟩, d₁) ∧ Formatted size number name d d₁ := by
  unfold format
  rw [bind_ok (require_true (not_lt.mpr hsize)), if_neg (not_le.mpr hnumber), bind_ok (modify_run _),
    bind_ok (request_run (henv.heap _))]
  set d₀ : Drive :=
    ({ d with
      alloc := blockAllocInit d.alloc (formatBlocks size), driveNumber := number } : Drive).later
        (d.moment + 1) with hd₀
  obtain ⟨a₁, t₁, halloc⟩ := allocRun_init (d := d₀) env rfl (show 1 < formatBlocks size by omega)
  obtain ⟨a₂, t₂, hzero⟩ := markUsed_run env 0 1 (d₀.rebooked a₁ t₁)
  obtain ⟨a₃, t₃, hone⟩ := markUsed_run env 1 1 ((d₀.rebooked a₁ t₁).rebooked a₂ t₂)
  rw [bind_ok halloc, bind_ok (require_true one_ne_zero), bind_ok hzero, bind_ok hone, bind_ok now_run,
    bind_ok now_run, bind_ok (modify_run _)]
  obtain ⟨t₄, hdesc⟩ := writeStorageDesc_fits henv (d := { ((d₀.rebooked a₃ (t₃ + 2))) with
      storageDesc := emptyDesc size number (some name) 1 (getDatetime (env.clock t₃))
        (getDatetime (env.clock (t₃ + 1))) })
    (fits_emptyDesc (length_getDatetime _) (length_getDatetime _))
  obtain ⟨t₅, hroot⟩ := writeText_run henv (show 1 < 2 ^ 32 by decide) rootText _
  refine ⟨_, (bind_ok hdesc).trans ((bind_ok (request_run (henv.heap _))).trans hroot), ?_⟩
  refine ⟨⟨_, _, length_getDatetime _, length_getDatetime _, rfl⟩, ?_, ?_, rfl, rfl, rfl⟩
  · rfl
  · rw [Drive.later_disk, Drive.refolded_self]

theorem format_accepts (h : format env size number (some name) d = (.ok ⟨⟩, d₁)) :
    16 ≤ formatBlocks size ∧ number < maxDrives := by
  obtain ⟨_, d', hreq, h⟩ := bind_eq_ok h
  refine ⟨?_, ?_⟩
  · by_contra hsmall
    unfold require at hreq
    rw [if_neg (by omega)] at hreq
    cases hreq
  · by_contra hnumber
    rw [if_pos (not_lt.mp hnumber)] at h
    cases h

end Format

/-! ## What a mount reads -/

section Mount

variable {number : ℕ} {sd : StorageDesc}

def Drive.tested (d : Drive) (t : ℕ) : Drive := { d with selfTestDone := true, moment := t }

@[simp] theorem Drive.tested_disk (d : Drive) (t : ℕ) : (d.tested t).disk = d.disk := rfl

@[simp] theorem Drive.tested_deviceSize (d : Drive) (t : ℕ) :
    (d.tested t).deviceSize = d.deviceSize := rfl

@[simp] theorem Drive.tested_later (d : Drive) (t u : ℕ) : (d.tested t).later u = d.tested u := rfl

theorem selfTest_run (henv : env.Ok) (d : Drive) : ∃ t, selfTest env d = (.ok ⟨⟩, d.tested t) := by
  unfold selfTest
  rw [bind_ok get_run]
  split_ifs with hdone
  · exact ⟨d.moment, by rw [Drive.tested, ← hdone]; rfl⟩
  · obtain ⟨t, ht⟩ := looks_readBlock henv.readOk 0
    exact ⟨t, by rw [bind_ok ht]; rfl⟩

theorem readStorageDesc_run (henv : env.Ok) (d : Drive) :
    ∃ t, readStorageDesc env d =
      (if (parseStorageDesc (d.disk 0).bytes).Valid then .ok (parseStorageDesc (d.disk 0).bytes)
        else .error .failed, d.later t) := by
  unfold readStorageDesc
  obtain ⟨t, ht⟩ := looks_readBlock henv.readOk 0
  refine ⟨t, ?_⟩
  rw [bind_ok (request_run (henv.heap _)), bind_ok ht]
  show (require (parseStorageDesc (d.disk 0).bytes).Valid >>= _) _ = _
  by_cases hvalid : (parseStorageDesc (d.disk 0).bytes).Valid
  · rw [bind_ok (require_true hvalid), if_pos hvalid]
    rfl
  · rw [bind_error (require_false hvalid), if_neg hvalid]
    rfl

theorem mount_eq (henv : env.Ok) (hnumber : number < maxDrives) (hmounted : d.mounted = false)
    (hdevice : d.deviceMounted = false) :
    ∃ t, mount env number d =
      (if (parseStorageDesc (d.disk 0).bytes).Valid then
        mountDesc env number (parseStorageDesc (d.disk 0).bytes) else pure 3) (d.tested t) := by
  obtain ⟨t, htest⟩ := selfTest_run henv d
  obtain ⟨u, hread⟩ := readStorageDesc_run henv (d.tested (t + 1))
  rw [Drive.tested_disk, Drive.tested_later] at hread
  refine ⟨u, ?_⟩
  unfold mount
  rw [bind_ok get_run, if_neg (not_le.mpr hnumber), if_neg (by simp [hmounted, hdevice]),
    bind_ok (attempt_ok htest)]
  show (attempt (request env) >>= _) _ = _
  rw [bind_ok (attempt_ok (request_run (henv.heap _)))]
  show (attempt (readStorageDesc env) >>= _) (d.tested (t + 1)) = _
  by_cases hvalid : (parseStorageDesc (d.disk 0).bytes).Valid
  · rw [if_pos hvalid] at hread ⊢
    rw [bind_ok (attempt_ok hread)]
  · rw [if_neg hvalid] at hread ⊢
    rw [bind_ok (attempt_failed hread)]

theorem attempt_writeStorageDesc (henv : env.Ok) (d : Drive) :
    ∃ r disk t, attempt (writeStorageDesc env) d = (.ok r, { d with disk := disk, moment := t }) := by
  by_cases hfits : (printStorageDesc d.storageDesc).length < blockSize
  · obtain ⟨t, ht⟩ := writeText_run henv (show 0 < 2 ^ 32 by decide) (printStorageDesc d.storageDesc) d
    have hrun : writeStorageDesc env d = _ :=
      (bind_ok get_run).trans ((bind_ok (require_true hfits)).trans ht)
    exact ⟨_, _, t, attempt_ok hrun⟩
  · have hrun : writeStorageDesc env d = (.error .failed, d) :=
      (bind_ok get_run).trans (bind_error (require_false hfits))
    exact ⟨_, _, _, attempt_failed hrun⟩

theorem StorageDesc.refresh_totalBlocks (sd : StorageDesc) (a : BlockAlloc) (date : List UInt8) :
    (sd.refresh a date).totalBlocks = sd.totalBlocks := by
  rw [StorageDesc.refresh]

theorem StorageDesc.refresh_driveName (sd : StorageDesc) (a : BlockAlloc) (date : List UInt8) :
    (sd.refresh a date).driveName = sd.driveName := by
  rw [StorageDesc.refresh]

structure Mounted (number : ℕ) (sd : StorageDesc) (d : Drive) : Prop where
  totalBlocks : d.storageDesc.totalBlocks = sd.totalBlocks
  rootBlock : d.storageDesc.rootBlock = sd.rootBlock
  storedName : d.storageDesc.driveName = sd.driveName
  driveName : d.driveName = mountName number sd

theorem Mounted.inUse (h : Mounted number sd d) (date : List UInt8) :
    Mounted number sd (d.inUse date) :=
  ⟨h.totalBlocks, h.rootBlock, h.storedName, h.driveName⟩

theorem Mounted.later (h : Mounted number sd d) {t : ℕ} : Mounted number sd (d.later t) :=
  ⟨h.totalBlocks, h.rootBlock, h.storedName, h.driveName⟩

theorem Mounted.refresh {d₁ : Drive} (h : Mounted number sd d) {date : List UInt8}
    (hdesc : d₁.storageDesc = d.storageDesc.refresh d.alloc date) (hname : d₁.driveName = d.driveName) :
    Mounted number sd d₁ := by
  constructor
  · rw [hdesc, StorageDesc.refresh_totalBlocks, h.totalBlocks]
  · rw [hdesc, StorageDesc.refresh_rootBlock, h.rootBlock]
  · rw [hdesc, StorageDesc.refresh_driveName, h.storedName]
  · rw [hname, h.driveName]

theorem refreshStorageDesc_mounted (henv : env.Ok) (h : Mounted number sd d) :
    ∃ d', refreshStorageDesc env d = (.ok ⟨⟩, d') ∧ Mounted number sd d' := by
  have hfigures : ∀ date : List UInt8, ∃ d₁ : Drive,
      (modify fun d => { d with storageDesc := d.storageDesc.refresh d.alloc date } : Fs PUnit)
        (d.later (d.moment + 1)) = (.ok ⟨⟩, d₁) ∧
      d₁.storageDesc = d.storageDesc.refresh d.alloc date ∧ d₁.driveName = d.driveName :=
    fun _ => ⟨_, modify_run _, rfl, by dsimp only [Drive.later]⟩
  obtain ⟨d₁, hrun₁, hdesc, hname⟩ := hfigures (getDatetime (env.clock d.moment))
  have hmounted := h.refresh hdesc hname
  unfold refreshStorageDesc
  rw [bind_ok now_run, bind_ok hrun₁, bind_ok get_run]
  split_ifs
  · obtain ⟨r, disk, t, ht⟩ := attempt_writeStorageDesc henv d₁
    exact ⟨_, bind_ok ht, hmounted.1, hmounted.2, hmounted.3, hmounted.4⟩
  · exact ⟨d₁, rfl, hmounted⟩

theorem attach_cases (henv : env.Ok) (number : ℕ) (sd : StorageDesc) (d : Drive) :
    (∃ d₂, attach env number sd d = (.ok 1, d₂) ∧ Mounted number sd d₂) ∨
      (Descent.Deep d.Subdir env.fuel sd.rootBlock ∧ ∀ d₂, attach env number sd d ≠ (.ok 1, d₂)) := by
  unfold attach
  obtain ⟨a₁, t₁, hzero⟩ := markUsed_run env 0 1 (d.attached number sd)
  obtain ⟨a₂, t₂, hroot⟩ := markUsed_run env sd.rootBlock 1 ((d.attached number sd).rebooked a₁ t₁)
  rw [bind_ok (modify_run _), bind_ok hzero, bind_ok hroot]
  set d₁ : Drive := ((d.attached number sd).rebooked a₁ t₁).rebooked a₂ t₂ with hd₁
  have hends := ends_scanDirectory env d₁ env.fuel sd.rootBlock
  obtain ⟨a, t, hbooks⟩ := hends.books d₁ rfl
  cases hscan : (scanDirectory env env.fuel sd.rootBlock d₁).1 with
  | error e =>
    refine .inr ⟨?_, fun d₂ h => ?_⟩
    · by_contra hdeep
      rw [hends.ok d₁ rfl hdeep] at hscan
      cases hscan
    · have hfirst := congrArg Prod.fst h
      rw [bind_fst_error hscan] at hfirst
      cases hfirst
  | ok =>
    refine .inl ?_
    have hmounted : Mounted number sd (d₁.rebooked a t) := ⟨rfl, rfl, rfl, rfl⟩
    obtain ⟨d₂, hrefresh, hmounted⟩ := refreshStorageDesc_mounted henv hmounted
    have hrun : scanDirectory env env.fuel sd.rootBlock d₁ = (.ok ⟨⟩, d₁.rebooked a t) :=
      Prod.ext hscan hbooks
    rw [bind_ok hrun, bind_ok hrefresh, bind_ok now_run]
    exact ⟨_, rfl, hmounted.later.inUse _⟩

/-- The descriptors that are mounted. -/
structure StorageDesc.Mountable (sd : StorageDesc) (deviceSize : ℕ) : Prop where
  valid : sd.Valid
  root : sd.rootBlock < sd.totalBlocks
  device : sd.totalBlocks * blockSize ≤ deviceSize

theorem mountDesc_eq (hvalid : sd.Valid) :
    mountDesc env number sd d =
      (if sd.totalBlocks ≤ sd.rootBlock then pure 4
      else if d.deviceSize < sd.totalBlocks * blockSize then pure 5
      else attach env number sd) d := by
  unfold mountDesc
  rw [bind_ok get_run, if_neg]
  rintro (h | h | h)
  · exact h hvalid.1
  · exact hvalid.2.2.2 h
  · exact hvalid.2.1 h

/-- **A mount that succeeds** has found a descriptor that can be mounted, and takes it over. -/
theorem mount_inv (henv : env.Ok) (h : mount env number d = (.ok 1, d₂)) :
    d.mounted = false ∧ d.deviceMounted = false ∧
      (parseStorageDesc (d.disk 0).bytes).Mountable d.deviceSize ∧
      Mounted number (parseStorageDesc (d.disk 0).bytes) d₂ := by
  have hcode : ∀ {code : ℕ} {d : Drive}, (pure code : Fs ℕ) d = (.ok 1, d₂) → code = 1 := by
    intro code d h
    exact Except.ok.inj (congrArg Prod.fst h)
  have hnumber : number < maxDrives := by
    by_contra hnot
    unfold mount at h
    rw [bind_ok get_run, if_pos (not_lt.mp hnot)] at h
    exact absurd (hcode h) (by decide)
  have hfree : ¬ (d.mounted = true ∨ d.deviceMounted = true) := by
    intro hbusy
    unfold mount at h
    rw [bind_ok get_run, if_neg (not_le.mpr hnumber), if_pos hbusy] at h
    exact absurd (hcode h) (by decide)
  rw [not_or, Bool.not_eq_true, Bool.not_eq_true] at hfree
  obtain ⟨t, hmount⟩ := mount_eq henv hnumber hfree.1 hfree.2
  rw [hmount] at h
  by_cases hvalid : (parseStorageDesc (d.disk 0).bytes).Valid
  · rw [if_pos hvalid, mountDesc_eq hvalid] at h
    split_ifs at h with hroot hdevice
    · exact absurd (hcode h) (by decide)
    · exact absurd (hcode h) (by decide)
    · refine ⟨hfree.1, hfree.2, ⟨hvalid, not_le.mp hroot, not_lt.mp hdevice⟩, ?_⟩
      rcases attach_cases henv number (parseStorageDesc (d.disk 0).bytes) (d.tested t) with hrun | hrun
      · obtain ⟨d', hrun, hmounted⟩ := hrun
        rw [hrun] at h
        exact (Prod.mk.inj h).2 ▸ hmounted
      · exact absurd h (hrun.2 d₂)
  · rw [if_neg hvalid] at h
    exact absurd (hcode h) (by decide)

theorem mount_run (henv : env.Ok) (hnumber : number < maxDrives) (hmounted : d.mounted = false)
    (hdevice : d.deviceMounted = false)
    (hsd : (parseStorageDesc (d.disk 0).bytes).Mountable d.deviceSize)
    (hscan : ¬ Descent.Deep d.Subdir env.fuel (parseStorageDesc (d.disk 0).bytes).rootBlock) :
    ∃ d₂, mount env number d = (.ok 1, d₂) := by
  obtain ⟨t, hmount⟩ := mount_eq henv hnumber hmounted hdevice
  rw [if_pos hsd.valid, mountDesc_eq hsd.valid, if_neg (not_le.mpr hsd.root), Drive.tested_deviceSize,
    if_neg (not_lt.mpr hsd.device)] at hmount
  rcases attach_cases henv number (parseStorageDesc (d.disk 0).bytes) (d.tested t) with h | h
  · obtain ⟨d₂, hrun, -⟩ := h
    exact ⟨d₂, hmount.trans hrun⟩
  · exact absurd h.1 hscan

end Mount

/-! ## Mounting what was formatted -/

/-- The name leaves the other lines alone: it fits, ends at its quote, and has no tag that makes
another number of blocks, another root or a size of zero be read. -/
structure NameFits (size : ℕ) (name : List UInt8) : Prop where
  short : name.length < 64
  unquoted : (39 : UInt8) ∉ name
  blocks : u32 (numberRead name "TOTAL_BLOCKS" (formatBlocks size)) = formatBlocks size
  root : u32 (numberRead name "ROOT_BLOCK" 1) = 1
  size : sizeRead name (formatSize size) ≠ 0

theorem strncpy_eq_self {name : List UInt8} (hzero : (0 : UInt8) ∉ name) (hshort : name.length < 64) :
    strncpy 64 name = name := by
  rw [strncpy, cstr_eq_self hzero, List.take_of_length_le (by omega)]

section Name

variable {size number : ℕ} {name : List UInt8}

section

variable (h : Formatted size number name d d₁)

include h

theorem Formatted.parse (hsize : size < 2 ^ 64) (hzero : (0 : UInt8) ∉ name)
    (hshort : name.length < 64) (hquote : (39 : UInt8) ∉ name) {p : StorageDesc}
    (hp : p = parseStorageDesc (d₁.disk 0).bytes) :
    p.magic = minimafsMagic ∧ p.driveName = name ∧
      p.totalBlocks = u32 (numberRead name "TOTAL_BLOCKS" (formatBlocks size)) ∧
      p.rootBlock = u32 (numberRead name "ROOT_BLOCK" 1) ∧
      p.totalSize = sizeRead name (formatSize size) := by
  obtain ⟨created, mounted, hcreated, hmounted, hdesc⟩ := h.desc
  have hname : (emptyDesc size number (some name) 1 created mounted).driveName = name :=
    strncpy_eq_self hzero hshort
  have hprintable : (emptyDesc size number (some name) 1 created mounted).Printable :=
    ⟨by rw [hname]; exact ⟨hzero, hquote⟩, List.not_mem_nil, List.not_mem_nil⟩
  rw [h.block, hdesc] at hp
  have hread := parseStorageDesc_print hprintable (by rw [hname]; exact hshort)
    (fits_emptyDesc hcreated hmounted).length_lt (show minimafsMagic < 2 ^ 32 by decide)
    ((formatSize_le size).trans_lt hsize) ((formatBlocks_lt size).trans (by decide))
    (show 1 < 2 ^ 64 by decide) hp
  rwa [hname] at hread

theorem Formatted.not_deep {n : ℕ} (hn : 0 < n) : ¬ Descent.Deep d₁.Subdir n 1 := by
  obtain ⟨k, rfl⟩ : ∃ k, n = k + 1 := ⟨n - 1, by omega⟩
  rintro ⟨b, ⟨e, he, -⟩, -⟩
  have hempty : (parseFolderDesc 1 (Block.ofBytes rootText).bytes).entries = [] := by decide +kernel
  rw [Drive.folderAt, h.root] at he
  cases he

theorem Formatted.shown :
    d₁.storageDesc.totalBlocks = formatBlocks size ∧ d₁.storageDesc.rootBlock = 1 := by
  obtain ⟨created, mounted, -, -, hdesc⟩ := h.desc
  rw [hdesc]
  exact ⟨rfl, rfl⟩

end

end Name

/-- A mount of the drive succeeds and brings back the number of blocks, the root and the name. A
drive without a name is shown by its number. -/
def MountsAs (env : Env) (number : ℕ) (name : List UInt8) (d : Drive) : Prop :=
  ∃ d', mount env number d = (.ok 1, d') ∧
    d'.storageDesc.totalBlocks = d.storageDesc.totalBlocks ∧
    d'.storageDesc.rootBlock = d.storageDesc.rootBlock ∧
    d'.storageDesc.driveName = name ∧
    d'.driveName = if name = [] then uintToStr number else name

/-- **Formatting and mounting.** On a machine that serves every request, a volume that was formatted
is mounted as it was formatted exactly when it is not in use, it fits its device and its name
leaves the other lines of the descriptor alone. -/
theorem format_mount_iff (env : Env) (henv : env.Ok) (hfuel : 0 < env.fuel) {d d₁ : Drive}
    {size number : ℕ} {name : List UInt8} (hsize : size < 2 ^ 64) (hname : (0 : UInt8) ∉ name)
    (hformat : format env size number (some name) d = (.ok ⟨⟩, d₁)) :
    MountsAs env number name d₁ ↔
      d.mounted = false ∧ d.deviceMounted = false ∧
        formatBlocks size * blockSize ≤ d.deviceSize ∧ NameFits size name := by
  obtain ⟨hblocks, hnumber⟩ := format_accepts hformat
  obtain ⟨d', hrun, hformatted⟩ := format_run henv hblocks hnumber name d
  obtain rfl : d' = d₁ := (Prod.mk.inj (hrun.symm.trans hformat)).2
  obtain ⟨htotal, hroot⟩ := hformatted.shown
  have hone : 1 < formatBlocks size := by omega
  rw [← hformatted.mounted, ← hformatted.deviceMounted, ← hformatted.deviceSize]
  constructor
  · rintro ⟨d₂, hmount, htotal₂, hroot₂, hname₂, -⟩
    obtain ⟨hfree, hdevice, hmountable, hmounted⟩ := mount_inv henv hmount
    -- what is read as the name is short and unquoted, and it is the name
    obtain ⟨created, mounted, hcreated, hmounted', hdesc⟩ := hformatted.desc
    have hfits' : d'.storageDesc.Fits := by
      rw [hdesc]
      exact fits_emptyDesc hcreated hmounted'
    have hread := driveName_parseStorageDesc hfits'.length_lt
    rw [← hformatted.block, ← hmounted.storedName, hname₂] at hread
    obtain ⟨-, -, hblocks', hroot', hsize'⟩ :=
      hformatted.parse hsize hname hread.1 hread.2 rfl
    have hblocks'' := hmounted.totalBlocks
    have hroot'' := hmounted.rootBlock
    have hvalid := hmountable.valid.2.2.1
    have hfits := hmountable.device
    rw [htotal₂, htotal] at hblocks''
    rw [hroot₂, hroot] at hroot''
    rw [← hblocks''] at hfits
    rw [hsize'] at hvalid
    exact ⟨hfree, hdevice, hfits, hread.1, hread.2, by rw [← hblocks', ← hblocks''],
      by rw [← hroot', ← hroot''], hvalid⟩
  · rintro ⟨hfree, hdevice, hfits, hn⟩
    obtain ⟨hmagic, hname', hblocks', hroot', hsize'⟩ :=
      hformatted.parse hsize hname hn.short hn.unquoted rfl
    rw [hn.blocks] at hblocks'
    rw [hn.root] at hroot'
    have hmountable : (parseStorageDesc (d'.disk 0).bytes).Mountable d'.deviceSize := by
      refine ⟨⟨hmagic, by rw [hblocks']; omega, by rw [hsize']; exact hn.size, by rw [hroot']; decide⟩,
        by rw [hroot', hblocks']; exact hone, by rw [hblocks']; exact hfits⟩
    obtain ⟨d₂, hmount⟩ := mount_run henv hnumber hfree hdevice hmountable (by
      rw [hroot']
      exact hformatted.not_deep hfuel)
    obtain ⟨-, -, -, hmounted⟩ := mount_inv henv hmount
    refine ⟨d₂, hmount, ?_, ?_, ?_, ?_⟩
    · rw [hmounted.totalBlocks, hblocks', htotal]
    · rw [hmounted.rootBlock, hroot', hroot]
    · rw [hmounted.storedName, hname']
    · rw [hmounted.driveName, mountName, hname', strncpy_eq_self hname hn.short]

/-- A machine that serves every request and lets recursions go one level deep. -/
def flatEnv : Env := { calmEnv with fuel := 1 }

theorem flatEnv_ok : flatEnv.Ok := ⟨fun _ => rfl, fun _ _ => rfl, fun _ _ => rfl⟩

/-- A drive with a device of sixteen blocks that is not in use. -/
def spareDrive : Drive :=
  { calmDrive with mounted := false, deviceMounted := false, deviceSize := 65536 }

theorem format_mount_plain : ∃ d₁,
    format flatEnv 65536 1 (some (ascii "disk@home")) spareDrive = (.ok ⟨⟩, d₁) ∧
      MountsAs flatEnv 1 (ascii "disk@home") d₁ := by
  obtain ⟨d₁, hformat, -⟩ := format_run flatEnv_ok (show 16 ≤ formatBlocks 65536 by decide)
    (show 1 < maxDrives by decide) (ascii "disk@home") spareDrive
  exact ⟨d₁, hformat, (format_mount_iff flatEnv flatEnv_ok (by decide) (by decide) (by decide)
    hformat).mpr ⟨rfl, rfl, by decide, by decide, by decide, by decide, by decide, by decide⟩⟩

/-- A name with a tag: one block is read for the volume, and the root is not in it. -/
theorem format_mount_tag :
    (format flatEnv 65536 1 (some (ascii "@TOTAL_BLOCKS:1")) spareDrive).1 = .ok ⟨⟩ ∧
      (mount flatEnv 1 (format flatEnv 65536 1 (some (ascii "@TOTAL_BLOCKS:1")) spareDrive).2).1 =
        .ok 4 := by
  decide +kernel

end MinimalOS.Minimafs
