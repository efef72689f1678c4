import MinimalOS.Minimafs.AppendCopy

/-!
# Reads that fail during an append

The copy of `minimafs_append_file` asks the reader of the old data for as many bytes as fit the
block. A reader that cannot read a block returns fewer, and the loop asks again. So a read that fails
once is made up for and the call succeeds, and a block that cannot be read at all keeps the call from
returning. The call ends as it should exactly when none of its reads fails.
-/

namespace MinimalOS.Minimafs

open CString Fs Relation

variable {env : Env} {p : AppendPlan} {d : Drive}

/-! ## What the call prepares -/

theorem foldl_parseHeaderLine_fileLength (lines : List (List UInt8)) (m : FileMetadata)
    (hm : m.fileLength < 2 ^ 32) : (lines.foldl parseHeaderLine m).fileLength < 2 ^ 32 := by
  induction lines generalizing m with
  | nil => exact hm
  | cons line lines ih => exact ih _ (Nat.mod_lt _ (by decide))

theorem parseFileHeader_fileLength {text : List UInt8} {m : FileMetadata}
    (h : parseFileHeader text = some m) : m.fileLength < 2 ^ 32 := by
  unfold parseFileHeader at h
  split_ifs at h
  cases h
  exact foldl_parseHeaderLine_fileLength _ _ (by decide)

theorem oldDataLength_sane {m : FileMetadata} (hm : m.fileLength < 2 ^ 32) (entry : DirEntry)
    (size : ℕ) (h : 0 < oldDataLength m entry size) : size + oldDataLength m entry size < 2 ^ 32 := by
  have hblocks : u32 (entry.blockCount * blockSize) < 2 ^ 32 := Nat.mod_lt _ (by decide)
  unfold oldDataLength at h ⊢
  dsimp only at h ⊢
  split_ifs at h ⊢ <;> omega

theorem CopyAt.start (p : AppendPlan) (buf : Block) (d : Drive) :
    CopyAt env p d.moment ⟨0, [], .header, 0, 0,
      ⟨p.entry.blockOffset, p.oldHeaderSize, p.oldDataLen, 0, noBlock, buf⟩⟩ d where
  blocks := Nat.zero_le _
  short := Nat.zero_le _
  reader := ⟨rfl, rfl, rfl, rfl, (if_pos rfl).symm⟩
  inside := Nat.zero_le _
  moment := by rw [AppendPlan.readCount]; rfl
  reads := fun _ _ h => absurd h (Nat.not_lt_zero _)
  header := fun _ => ⟨Nat.zero_le _, by rw [List.length_nil, Nat.zero_mul], rfl⟩
  oldData := nofun
  later := fun h => absurd rfl h
  ending := nofun

variable {path data : List UInt8} {s : Copying} {d₁ : Drive}

theorem prepareAppend_ok (h : prepareAppend env path data d = (.ok (p, s), d₁)) :
    p.Sane ∧ CopyAt env p d₁.moment s d₁ := by
  unfold prepareAppend at h
  generalize splitLocalPath path = parts at h
  obtain ⟨parent, filename⟩ := parts
  iterate 7 obtain ⟨_, _, -, h⟩ := bind_eq_ok h
  obtain ⟨desc, _, -, h⟩ := bind_eq_ok h
  cases hfind : findEntryInFolder desc filename with
  | none =>
    rw [hfind] at h
    cases h
  | some index =>
    rw [hfind] at h
    dsimp only at h
    cases hentry : desc.entries[index]? with
    | none =>
      rw [hentry] at h
      cases h
    | some entry =>
      rw [hentry] at h
      iterate 2 obtain ⟨_, _, -, h⟩ := bind_eq_ok h
      obtain ⟨first, _, -, h⟩ := bind_eq_ok h
      obtain ⟨_, _, -, h⟩ := bind_eq_ok h
      cases hparse : parseFileHeader first.bytes with
      | none =>
        rw [hparse] at h
        cases h
      | some m =>
        cases hstart : dataStart first.bytes with
        | none =>
          rw [hparse, hstart] at h
          cases h
        | some oldHeaderSize =>
          rw [hparse, hstart] at h
          obtain ⟨date, _, -, h⟩ := bind_eq_ok h
          iterate 3 obtain ⟨_, _, -, h⟩ := bind_eq_ok h
          obtain ⟨newStart, _, -, h⟩ := bind_eq_ok h
          obtain ⟨t, _, -, h⟩ := bind_eq_ok h
          iterate 2 obtain ⟨_, _, -, h⟩ := bind_eq_ok h
          cases h
          exact ⟨oldDataLength_sane (parseFileHeader_fileLength hparse) _ _, CopyAt.start _ _ _⟩

theorem soft_prepareAppend (env : Env) (path data : List UInt8) :
    Soft (prepareAppend env path data) := by
  unfold prepareAppend
  generalize splitLocalPath path = parts
  obtain ⟨parent, filename⟩ := parts
  refine (soft_require _).bind fun _ => soft_request.bind fun _ => soft_request.bind fun _ =>
    soft_request.bind fun _ => Soft.of_get.bind fun _ => (soft_require _).bind fun _ =>
    soft_request.bind fun _ => (soft_readFolderDesc env _).bind fun desc => ?_
  rcases findEntryInFolder desc filename with _ | index
  · exact .of_failed
  dsimp only
  rcases desc.entries[index]? with _ | entry
  · exact .of_failed
  refine (soft_require _).bind fun _ => soft_request.bind fun _ =>
    (soft_readBlock env _).bind fun first => soft_request.bind fun _ => ?_
  rcases parseFileHeader first.bytes with _ | m
  · exact .of_failed
  rcases dataStart first.bytes with _ | oldHeaderSize
  · exact .of_failed
  exact soft_now.bind fun _ => soft_request.bind fun _ => soft_request.bind fun _ =>
    soft_request.bind fun _ => (soft_allocRun env _).bind fun _ => soft_moment.bind fun _ =>
    ((soft_require _).onFail (soft_freeRun env _ _)).bind fun _ =>
    (soft_request.onFail (soft_freeRun env _ _)).bind fun _ => Soft.of_pure _

theorem soft_finishAppend (env : Env) (p : AppendPlan) : Soft (finishAppend env p) := by
  have hrest : Soft (writeFolderDesc env p.folder >>= fun _ => refreshStorageDesc env) :=
    (soft_writeFolderDesc env _).bind fun _ => soft_refreshStorageDesc env
  exact ((soft_freeRun env _ _).bind fun _ => hrest).ite hrest

/-! ## On a machine that writes -/

theorem odrLoop_ok (env : Env) (n len : ℕ) (r : OldDataReader) (d : Drive) :
    ∃ x d', odrLoop env n len r d = (.ok x, d') := by
  induction n generalizing len r d with
  | zero => exact ⟨_, d, rfl⟩
  | succ n ih =>
    unfold odrLoop
    split_ifs
    · exact ⟨_, d, rfl⟩
    · set bi := u32 (r.fileOffset + r.dataPos) / blockSize
      have hattempt : ∃ block, Looks (attempt (if bi = r.cachedBlock then pure r.blockBuf
          else readBlock env (u32 (r.fileBlock + bi)))) d block :=
        Soft.looks_attempt ((Soft.of_pure _).ite (soft_readBlock env _))
          ((Quiet.of_pure _).ite (quiet_readBlock _)) d
      obtain ⟨block, t, hfetch⟩ := hattempt
      rw [bind_ok hfetch]
      cases block with
      | none => exact ⟨_, _, rfl⟩
      | some block =>
        obtain ⟨x, d', hrest⟩ := ih _ _ _
        exact ⟨_, d', bind_ok hrest⟩

theorem copyStep_ok (hwrite : ∀ t b, env.writeOk t b = true) (p : AppendPlan) (s : Copying)
    (d : Drive) : ∃ s' d', copyStep env p s d = (.ok s', d') := by
  unfold copyStep
  split_ifs
  · unfold fill
    cases s.seg with
    | oldData =>
      dsimp only
      split_ifs
      · exact ⟨_, d, rfl⟩
      · obtain ⟨x, d', hread⟩ := odrLoop_ok env (p.wanted s) (p.wanted s) s.reader d
        exact ⟨_, d', bind_ok hread⟩
    | newData =>
      split_ifs <;> exact ⟨_, d, rfl⟩
    | header | footer | done => exact ⟨_, d, rfl⟩
  · exact ⟨_, _, bind_ok ((writeBlock_eq env _ _ d).trans (if_pos (hwrite _ _)))⟩

theorem copyLoop_not_failed (hwrite : ∀ t b, env.writeOk t b = true) (p : AppendPlan) (n : ℕ)
    (s : Copying) (d : Drive) : ∃ d', copyLoop env p n s d = (.ok ⟨⟩, d') ∨
      copyLoop env p n s d = (.error .looping, d') := by
  induction n generalizing s d with
  | zero =>
    unfold copyLoop
    split_ifs
    · exact ⟨d, .inr rfl⟩
    · exact ⟨d, .inl rfl⟩
  | succ n ih =>
    unfold copyLoop
    split_ifs
    · obtain ⟨s', d', hstep⟩ := copyStep_ok hwrite p s d
      rw [bind_ok hstep]
      exact ih s' d'
    · exact ⟨d, .inl rfl⟩

/-- The folder can be written with the entry in its new place. -/
def AppendPlan.Recordable (p : AppendPlan) : Prop :=
  (p.folder.blockOffset ≠ 0 ∧ p.folder.entries.length ≤ maxRootEntries) ∧
    (printFolderDesc p.folder).isSome

theorem finishAppend_ok (hwrite : ∀ t b, env.writeOk t b = true) (hrec : p.Recordable) (d : Drive) :
    ∃ d', finishAppend env p d = (.ok ⟨⟩, d') := by
  obtain ⟨hplace, hprint⟩ := hrec
  obtain ⟨text, htext⟩ := Option.isSome_iff_exists.mp hprint
  have hrest : ∀ d, ∃ d', (writeFolderDesc env p.folder >>= fun _ => refreshStorageDesc env) d =
      (.ok ⟨⟩, d') := by
    intro d
    obtain ⟨d', hrefresh, -⟩ := refreshStorageDesc_run hwrite
      ((d.store p.folder.blockOffset [Block.ofBytes text]).later (d.moment + 1))
    have hwritten : writeFolderDesc env p.folder d =
        (.ok ⟨⟩, (d.store p.folder.blockOffset [Block.ofBytes text]).later (d.moment + 1)) := by
      unfold writeFolderDesc
      rw [bind_ok (require_true hplace), htext]
      exact (writeBlock_eq env _ _ d).trans (if_pos (hwrite _ _))
    exact ⟨d', (bind_ok hwritten).trans hrefresh⟩
  unfold finishAppend
  split_ifs
  · obtain ⟨a, t, hfree⟩ := freeRun_run env p.entry.blockOffset p.entry.blockCount d
    exact hrest _
  · exact hrest d

/-! ## The call -/

def OldReadFails (env : Env) (path data : List UInt8) (d : Drive) : Prop :=
  ∃ p s d₁ y, prepareAppend env path data d = (.ok (p, s), d₁) ∧
    ReflTransGen (CopyRel env p) (s, d₁) y ∧ ReadFails env p y.1 y.2

/-- The call returns, and if a read of the old data fails then with `false` and with the entry of the
file as it was. -/
def AppendSafe (env : Env) (path data : List UInt8) (d : Drive) : Prop :=
  ∃ n r d', appendFile env n path data d = (r, d') ∧ r ≠ .error .looping ∧
    (OldReadFails env path data d → r = .error .failed ∧ ∀ block i entry,
      Found d (splitLocalPath path).1 (splitLocalPath path).2 block i entry →
        Found d' (splitLocalPath path).1 (splitLocalPath path).2 block i entry)

/-- Each block of the old file can be read at the first try. -/
def OldReadable (env : Env) (path data : List UInt8) (d : Drive) : Prop :=
  ∀ p s d₁, prepareAppend env path data d = (.ok (p, s), d₁) →
    ∀ b, p.Needs b → p.ReadOk env d₁.moment b

theorem appendFile_not_looping {n : ℕ} (hprep : prepareAppend env path data d = (.ok (p, s), d₁))
    (hcopy : (copyLoop env p n s d₁).1 ≠ .error .looping) :
    (appendFile env n path data d).1 ≠ .error .looping := by
  unfold appendFile
  rw [bind_ok hprep]
  dsimp only
  cases hrun : copyLoop env p n s d₁ with
  | mk r d₂ =>
    rw [hrun] at hcopy
    match r, hcopy with
    | .ok ⟨⟩, _ =>
      rw [bind_ok (onFail_ok hrun)]
      intro hloop
      cases soft_finishAppend env p d₂ _ hloop
    | .error .failed, _ =>
      have hfail : onFail (copyLoop env p n s) (freeRun env p.newStart p.blockCount) d₁ =
          (.error .failed, (freeRun env p.newStart p.blockCount d₂).2) := by
        unfold onFail
        rw [bind_ok (attempt_failed hrun)]
        rfl
      rw [bind_error hfail]
      exact nofun
    | .error .crashed, _ =>
      have hcrash : onFail (copyLoop env p n s) (freeRun env p.newStart p.blockCount) d₁ =
          (.error .crashed, d₂) := by
        unfold onFail
        rw [bind_error]
        unfold attempt
        rw [hrun]
      rw [bind_error hcrash]
      exact nofun

theorem OldReadable.not_fails (h : OldReadable env path data d) :
    ¬ OldReadFails env path data d := by
  rintro ⟨p, s, d₁, y, hprep, hreach, hfails⟩
  obtain ⟨hsane, hstart⟩ := prepareAppend_ok hprep
  obtain ⟨b, hb, hnot, -⟩ := (hstart.along hsane (h p s d₁ hprep) hreach).unread hsane hfails
  exact hnot (h p s d₁ hprep b hb)

theorem OldReadable.safe (h : OldReadable env path data d) : AppendSafe env path data d := by
  have hreturns : ∃ n, (appendFile env n path data d).1 ≠ .error .looping := by
    cases hres : prepareAppend env path data d with
    | mk r d₁ =>
      cases r with
      | error e =>
        refine ⟨0, fun hloop => ?_⟩
        unfold appendFile at hloop
        rw [bind_error hres] at hloop
        obtain rfl := Except.error.inj hloop
        cases soft_prepareAppend env path data d _ (congrArg Prod.fst hres)
      | ok x =>
        obtain ⟨p, s⟩ := x
        obtain ⟨hsane, hstart⟩ := prepareAppend_ok hres
        obtain ⟨y, hreach, hy, hstop⟩ := hstart.reaches hsane
        have hend : y.1.i = p.blockCount ∨ WriteFails env p y.1 y.2 := by
          obtain hi | hfails | hfails := hstop
          · exact .inl hi
          · exact absurd ⟨p, s, d₁, y, hres, hreach, hfails⟩ h.not_fails
          · exact .inr hfails
        obtain ⟨n, hn⟩ := copyLoop_ends hreach hend
        exact ⟨n, appendFile_not_looping hres hn⟩
  obtain ⟨n, hn⟩ := hreturns
  exact ⟨n, _, _, rfl, hn, fun hfails => absurd hfails h.not_fails⟩

theorem appendFile_unnoticed (hwrite : ∀ t b, env.writeOk t b = true)
    (hprep : prepareAppend env path data d = (.ok (p, s), d₁)) (hrec : p.Recordable)
    (n : ℕ) : (appendFile env n path data d).1 ≠ .error .failed := by
  unfold appendFile
  rw [bind_ok hprep]
  dsimp only
  obtain ⟨d₂, hrun | hrun⟩ := copyLoop_not_failed hwrite p n s d₁
  · obtain ⟨d₃, hfinish⟩ := finishAppend_ok hwrite hrec d₂
    rw [bind_ok (onFail_ok hrun), hfinish]
    exact nofun
  · rw [bind_fst_error (onFail_looping hrun)]
    exact nofun

theorem appendFile_hangs (hwrite : ∀ t b, env.writeOk t b = true)
    (hprep : prepareAppend env path data d = (.ok (p, s), d₁))
    (hlost : ∀ b, p.Needs b → ¬ p.ReadOk env d₁.moment b → ∀ u ≥ p.readMoment d₁.moment b,
      env.readOk u (u32 (p.entry.blockOffset + b)) = false) {b : ℕ} (hb : p.Needs b)
    (hnot : ¬ p.ReadOk env d₁.moment b) (n : ℕ) :
    (appendFile env n path data d).1 = .error .looping := by
  obtain ⟨hsane, hstart⟩ := prepareAppend_ok hprep
  have hcopy : (copyLoop env p n s d₁).1 = .error .looping := by
    obtain ⟨y, hreach, hy, hi | hstop | ⟨-, d₂, hstop⟩⟩ := hstart.reaches hsane
    · exact absurd (hy.readAll hi hb) hnot
    · obtain ⟨s', d', hstep, hstuck⟩ := hy.stuck hsane hstop hlost
      have hrel : CopyRel env p y (s', d') := ⟨hstop.1, hstep⟩
      exact copyLoop_looping (hreach.tail hrel) (hstuck.copyLoop hsane) n
    · obtain ⟨s', d₃, hstep⟩ := copyStep_ok hwrite p y.1 y.2
      cases hstep.symm.trans hstop
  unfold appendFile
  rw [bind_ok hprep]
  exact bind_fst_error (onFail_looping (Prod.ext hcopy rfl))

/-- **Failing reads.** The call ends as it should if it can read each block of the old file when it
asks for it. If it can write, that is necessary too. -/
theorem appendFile_safe (env : Env) (path data : List UInt8) (d : Drive) :
    (OldReadable env path data d → AppendSafe env path data d) ∧
      ((∀ t b, env.writeOk t b = true) →
        (∀ p s d₁, prepareAppend env path data d = (.ok (p, s), d₁) → p.Recordable) →
        AppendSafe env path data d → OldReadable env path data d) := by
  refine ⟨OldReadable.safe, fun hwrite hrec hsafe p s d₁ hprep b hb => ?_⟩
  obtain ⟨n, r, d', hrun, -, hfails⟩ := hsafe
  obtain ⟨hsane, hstart⟩ := prepareAppend_ok hprep
  obtain ⟨y, hreach, hy, hi | hstop | ⟨-, d₂, hstop⟩⟩ := hstart.reaches hsane
  · exact hy.readAll hi hb
  · obtain ⟨rfl, -⟩ := hfails ⟨p, s, d₁, y, hprep, hreach, hstop⟩
    exact absurd (congrArg Prod.fst hrun) (appendFile_unnoticed hwrite hprep (hrec p s d₁ hprep) n)
  · obtain ⟨s', d₃, hstep⟩ := copyStep_ok hwrite p y.1 y.2
    cases hstep.symm.trans hstop

/-- A volume with the file `a` in block 3 and with free blocks. -/
def growingDrive : Drive :=
  { calmDrive with
    storageDesc := { rootBlock := 2 }
    alloc := ⟨[⟨0, 4⟩], 1, 8, 4⟩
    disk := fun b => Block.ofBytes
      (if b = 2 then ascii "FOLDER:/\nENTRIES:1\nENTRY:a,FILE,BLOCK:3,COUNT:1,HIDDEN:0\n@END\n"
      else ascii "@HEADER@\n@FILELEN:51@\n@DATALEN:5@\n@DATA@\nhello@END\n") }

theorem appendFile_safe_growing :
    (appendFile calmEnv 6 (ascii "a") (ascii "x") growingDrive).1 = .ok ⟨⟩ ∧
      AppendSafe calmEnv (ascii "a") (ascii "x") growingDrive :=
  ⟨by decide +kernel, (appendFile_safe calmEnv (ascii "a") (ascii "x") growingDrive).1
    fun _ _ _ _ _ _ => rfl⟩

/-- A machine on which block 3 is lost at moment 10. -/
def lossyEnv : Env := { calmEnv with readOk := fun t b => decide (t < 10 ∨ b ≠ 3) }

theorem prepareAppend_growing : ∃ p s d₁,
    prepareAppend lossyEnv (ascii "a") (ascii "x") growingDrive = (.ok (p, s), d₁) ∧
      (p.entry.blockOffset, p.oldHeaderSize, p.oldDataLen, p.headerSize, p.blockCount, d₁.moment) =
        (3, 41, 5, 175, 1, 15) := by
  have hfigures : (match prepareAppend lossyEnv (ascii "a") (ascii "x") growingDrive with
      | (.ok (p, _), d₁) => some (p.entry.blockOffset, p.oldHeaderSize, p.oldDataLen, p.headerSize,
          p.blockCount, d₁.moment)
      | _ => none) = some (3, 41, 5, 175, 1, 15) := by
    decide +kernel
  generalize prepareAppend lossyEnv (ascii "a") (ascii "x") growingDrive = x at hfigures
  rcases x with ⟨_ | ⟨p, s⟩, d₁⟩
  · cases hfigures
  · exact ⟨p, s, d₁, rfl, Option.some.inj hfigures⟩

/-- The header of the file is still read, and then the copy asks for the block again and again. -/
theorem appendFile_lost : ¬ ∃ n,
    (appendFile lossyEnv n (ascii "a") (ascii "x") growingDrive).1 ≠ .error .looping := by
  rintro ⟨n, hn⟩
  obtain ⟨p, s, d₁, hprep, hfigures⟩ := prepareAppend_growing
  simp only [Prod.mk.injEq] at hfigures
  obtain ⟨hblock, hheader, hlen, hsize, hcount, hmoment⟩ := hfigures
  have hfirst : ∀ b, p.Needs b → b = 0 := by
    intro b hb
    have hinside : b * 4096 - p.oldHeaderSize < p.oldDataLen := hb.inside
    omega
  have hlost : ∀ u ≥ 15, lossyEnv.readOk u 3 = false := by
    intro u hu
    refine decide_eq_false ?_
    omega
  have hlate : ∀ b, 15 ≤ p.readMoment d₁.moment b := by
    intro b
    rw [AppendPlan.readMoment, hmoment, Nat.add_assoc]
    exact Nat.le_add_right _ _
  refine hn (appendFile_hangs (fun _ _ => rfl) hprep (fun b hb _ u hu => ?_)
    (b := 0) ⟨?_, ?_, ?_⟩ ?_ n)
  · obtain rfl := hfirst b hb
    rw [hblock]
    exact hlost u ((hlate 0).trans hu)
  · rw [hheader]
    decide
  · rw [AppendPlan.blockPos, hheader, hlen]
    decide
  · rw [AppendPlan.blockPos, hheader, hsize, hcount]
    decide
  · rw [AppendPlan.ReadOk, hblock]
    exact Bool.eq_false_iff.mp (hlost _ (hlate 0))

end MinimalOS.Minimafs
