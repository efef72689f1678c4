import MinimalOS.Pkg.Unzip

/-!
# What `pkglib_unzip` reads and where it writes

All reads stay inside the archive buffer, whatever its bytes are. The paths that an extraction
creates or writes are those of the target directory followed by a name without a `..`, as long as
`snprintf` has room for the whole path: it cuts a longer one off without telling, and what was
checked is the name before the cut. `unzip_confined_iff` says for which archives and targets that
does no harm, whatever the file system answers; that no other ones are safe is shown on a file
system that never changes (`still`).
-/

namespace MinimalOS.Pkg

open CString List

variable {σ : Type} {F : FileSystem σ}

/-! ## Names and paths -/

/-- A stretch of a path between two slashes or its ends. -/
def HasComponent (c path : Path) : Prop :=
  ∃ a b, path = a ++ c ++ b ∧ (a = [] ∨ a.getLast? = some slash) ∧ (b = [] ∨ b.head? = some slash)

abbrev dotdot : Path := [dot, dot]

/-- A path in a directory that does not leave it again. -/
def Inside (targetDir path : Path) : Prop :=
  ∃ rel, path = targetDir ++ slash :: rel ∧ ¬ HasComponent dotdot rel

/-- A call inside the target directory, or one that makes it. -/
def Effect.Confined (targetDir : Path) : Effect → Prop
  | .mkdir path _ => path = targetDir ∨ Inside targetDir path
  | .write path _ _ => Inside targetDir path

theorem hasDotDot_of_split {a b : Path} (prev : Option UInt8)
    (ha : a = [] ∧ (prev = none ∨ prev = some slash) ∨ a.getLast? = some slash)
    (hb : b = [] ∨ b.head? = some slash) : hasDotDot prev (a ++ dotdot ++ b) = true := by
  induction a generalizing prev with
  | nil =>
    have hprev : prev = none ∨ prev = some slash := by simpa using ha
    simp [hasDotDot, hprev, hb]
  | cons c a ih =>
    rw [cons_append, cons_append, hasDotDot, ih (some c), Bool.or_true]
    rcases a with _ | ⟨c', a⟩
    · left
      simpa using ha
    · right
      simpa using ha

variable {name path p targetDir : Path} {m : ℕ} {archive : List UInt8}

theorem not_hasComponent_of_safe (h : pkgNameIsSafe name = true) : ¬ HasComponent dotdot name := by
  rintro ⟨a, b, rfl, ha, hb⟩
  simp only [pkgNameIsSafe, decide_eq_true_eq] at h
  have := hasDotDot_of_split none (ha.imp (fun h => ⟨h, .inl rfl⟩) id) hb
  rw [h.2.2] at this
  simp at this

theorem not_hasComponent_take {j : ℕ} (h : ¬ HasComponent dotdot name)
    (hj : name[j]? = some slash ∨ name[j]? = none) : ¬ HasComponent dotdot (name.take j) := by
  rintro ⟨a, b, hsplit, ha, hb⟩
  refine h ⟨a, b ++ name.drop j, ?_, ha, ?_⟩
  · rw [← append_assoc, ← hsplit, take_append_drop]
  · rcases hb with rfl | hb
    · rw [nil_append, List.head?_drop]
      rcases hj with hj | hj
      · exact .inr hj
      · exact .inl (drop_eq_nil_of_le (List.getElem?_eq_none_iff.mp hj))
    · right
      rw [List.head?_append, hb]
      rfl

/-! ## The root of a path -/

theorem rootEnd_eq_some :
    rootEnd path = some m ↔ ∃ a rest, path = a ++ colon :: slash :: rest ∧ (0 : UInt8) ∉ a ∧
      colon ∉ a ∧ m = a.length + 2 := by
  constructor
  · intro h
    rw [rootEnd] at h
    split at h
    · rename_i c rest hcolon
      obtain ⟨a, rfl, h0, hc, hhead⟩ := strchr_eq_some hcolon
      split at h
      · rename_i hslash
        subst hslash
        cases hhead
        refine ⟨a, rest, rfl, h0, hc, ?_⟩
        rw [← Option.some.inj h]
        simp
        omega
      · simp at h
    · simp at h
  · rintro ⟨a, rest, rfl, h0, hc, rfl⟩
    rw [rootEnd, strchr_append _ h0 hc (by decide)]
    simp
    omega

theorem length_pos_of_rootEnd (h : (rootEnd path).isSome) : 0 < path.length := by
  refine length_pos_iff.mpr fun hnil => ?_
  rw [hnil] at h
  simp [rootEnd, strchr] at h

variable {q parent : Path} {off n : ℕ}

theorem rootEnd_append (h : rootEnd p = some m) : rootEnd (p ++ q) = some m := by
  obtain ⟨a, rest, rfl, h0, hc, rfl⟩ := rootEnd_eq_some.mp h
  exact rootEnd_eq_some.mpr ⟨a, rest ++ q, by simp, h0, hc, rfl⟩

theorem rootEnd_of_append (h : rootEnd (p ++ q) = some m) (hm : m ≤ p.length) :
    rootEnd p = some m := by
  obtain ⟨a, rest, hsplit, h0, hc, rfl⟩ := rootEnd_eq_some.mp h
  refine rootEnd_eq_some.mpr ⟨a, p.drop (a.length + 2), ?_, h0, hc, rfl⟩
  have htake : p.take (a.length + 2) = a ++ [colon, slash] := by
    have := congrArg (List.take (a.length + 2)) hsplit
    rw [take_append_of_le_length hm] at this
    rw [this]
    simp [take_append]
  rw [← take_append_drop (a.length + 2) p, htake]
  simp

theorem mem_cuts : p ∈ cuts path m ↔
    ∃ i, m < i ∧ i ≤ path.length ∧ (path[i]? = some slash ∨ path[i]? = none) ∧
      p = path.take i := by
  simp only [cuts, mem_map, mem_filter, mem_range'_1, decide_eq_true_eq]
  constructor
  · rintro ⟨i, ⟨hi, hlt, hend⟩, rfl⟩
    exact ⟨i, hlt, by omega, hend, rfl⟩
  · rintro ⟨i, hlt, hle, hend, rfl⟩
    exact ⟨i, ⟨by omega, hlt, hend⟩, rfl⟩

/-- The directories that a path goes through, itself included. -/
def ancestors (path : Path) : List Path := ((rootEnd path).map (cuts path)).getD []

theorem mem_ancestors : p ∈ ancestors path ↔ ∃ m i, rootEnd path = some m ∧
    m < i ∧ i ≤ path.length ∧ (path[i]? = some slash ∨ path[i]? = none) ∧ p = path.take i := by
  rw [ancestors]
  rcases rootEnd path with _ | m
  · simp
  · simp [mem_cuts]

theorem length_lt_of_inside (h : Inside targetDir p) : targetDir.length < p.length := by
  obtain ⟨rel, rfl, -⟩ := h
  simp

theorem length_le_of_mem_ancestors (h : p ∈ ancestors path) : p.length ≤ path.length := by
  obtain ⟨-, i, -, -, -, -, rfl⟩ := mem_ancestors.mp h
  exact (length_take_le' _ _)

theorem self_mem_ancestors (h : rootEnd targetDir = some m) :
    targetDir ++ slash :: name ∈ ancestors (targetDir ++ slash :: name) := by
  obtain ⟨a, rest, hsplit, -, -, hm⟩ := rootEnd_eq_some.mp h
  refine mem_ancestors.mpr ⟨m, _, rootEnd_append h, ?_, le_rfl, .inr (List.getElem?_eq_none le_rfl),
    take_length.symm⟩
  rw [hm, hsplit]
  simp

/-- What `pkg_mkdir_p` makes on the way to `target_dir/name`, cut off after `k` bytes of the name,
is a directory of the target's own path or lies inside it, short of the path itself. -/
theorem ancestors_cut {k : ℕ} (hname : ¬ HasComponent dotdot name)
    (h : p ∈ ancestors (targetDir ++ slash :: name.take k)) :
    p ∈ ancestors targetDir ∨ Inside targetDir p ∨ p = targetDir ++ slash :: name.take k := by
  obtain ⟨m, i, hroot, hlt, hle, hend, rfl⟩ := mem_ancestors.mp h
  rcases Nat.lt_or_ge targetDir.length i with hi | hi
  · obtain ⟨j, rfl⟩ := Nat.exists_eq_add_of_lt hi
    rw [Nat.add_assoc] at hle hend ⊢
    rw [List.getElem?_append_right (by omega), Nat.add_sub_cancel_left] at hend
    rw [take_length_add_append, take_succ_cons]
    rcases hend with hend | hend
    · -- a slash of the name
      have hj : (name.take k)[j]? = some slash := hend
      have hjk : j < k := by
        by_contra hk
        rw [List.getElem?_take_eq_none (by omega)] at hj
        simp at hj
      rw [List.getElem?_take_of_lt hjk] at hj
      refine .inr (.inl ⟨_, rfl, ?_⟩)
      rw [take_take, Nat.min_eq_left hjk.le]
      exact not_hasComponent_take hname (.inl hj)
    · have hj : (name.take k)[j]? = none := hend
      rw [take_of_length_le (List.getElem?_eq_none_iff.mp hj)]
      exact .inr (.inr rfl)
  · left
    refine mem_ancestors.mpr ⟨m, i, rootEnd_of_append hroot (by omega), hlt, hi, ?_, ?_⟩
    · rcases Nat.lt_or_ge i targetDir.length with hi' | hi'
      · rwa [List.getElem?_append_left hi'] at hend
      · exact .inr (List.getElem?_eq_none hi')
    · rw [take_append_of_le_length hi]

theorem pkgParentDir_spec (h : pkgParentDir path = some parent) :
    ∃ m a last len, rootEnd path = some m ∧ path = a ++ last ∧ last.head? = some slash ∧
      slash ∉ cstr last.tail ∧ len = (if a.length + 1 = m then a.length + 1 else a.length) ∧
      parent = path.take len := by
  rw [pkgParentDir] at h
  split at h
  swap
  · simp at h
  rename_i m last hroot hlast
  obtain ⟨a, rfl, hhead, htail⟩ := strrchr_eq_some hlast
  dsimp only at h
  rw [length_append, Nat.add_sub_cancel] at h
  generalize hlen : (if a.length + 1 = m then a.length + 1 else a.length) = len at h
  split at h
  · simp at h
  · exact ⟨m, a, last, len, hroot, rfl, hhead, htail, hlen.symm, (Option.some.inj h).symm⟩

theorem rootEnd_parent (h0 : (0 : UInt8) ∉ path) (h : pkgParentDir path = some parent) :
    parent.length ≤ path.length ∧ ∃ m, rootEnd parent = some m := by
  obtain ⟨m, a, last, len, hroot, rfl, hhead, htail, hlen, rfl⟩ := pkgParentDir_spec h
  obtain ⟨b, rest, hsplit, -, -, hm⟩ := rootEnd_eq_some.mp hroot
  have hlast0 : last ≠ [] := fun hnil => by simp [hnil] at hhead
  have hle : m ≤ a.length + 1 := by
    by_contra hlt
    have hget : (a ++ last)[b.length + 1]? = some slash := by
      rw [hsplit]
      simp
    rw [List.getElem?_append_right (by omega), ← cons_head_tail hlast0,
      show b.length + 1 - a.length = b.length - a.length + 1 by omega] at hget
    rw [cstr_eq_self fun hmem => h0 (mem_append_right _ (mem_of_mem_tail hmem))] at htail
    exact htail (mem_of_getElem? hget)
  have hlast1 := length_pos_iff.mpr hlast0
  refine ⟨by rw [length_take]; exact Nat.min_le_right _ _, m,
    rootEnd_of_append (by rwa [take_append_drop]) ?_⟩
  rw [length_take, length_append]
  split at hlen <;> omega

theorem ancestors_parent (hparent : pkgParentDir path = some parent) (h : p ∈ ancestors parent) :
    p ∈ ancestors path ∧ p ≠ path := by
  obtain ⟨m, a, last, len, hroot, rfl, hhead, -, hlen, rfl⟩ := pkgParentDir_spec hparent
  obtain ⟨m', i, hroot', hlt, hle, hend, rfl⟩ := mem_ancestors.mp h
  have hm : m' = m := by
    have := rootEnd_append (q := (a ++ last).drop len) hroot'
    rw [take_append_drop, hroot] at this
    exact (Option.some.inj this).symm
  rw [length_take] at hle
  have hlast : 0 < last.length := by
    cases last with
    | nil => simp at hhead
    | cons => simp
  have hshort : i ≤ a.length := by split at hlen <;> omega
  refine ⟨mem_ancestors.mpr ⟨m', i, by rw [hroot, hm], hlt, by omega, ?_, ?_⟩, fun hself => ?_⟩
  · rcases Nat.lt_or_ge i len with hi' | hi'
    · rwa [List.getElem?_take_of_lt hi'] at hend
    · have hia : i = a.length := by
        split at hlen <;> omega
      rw [hia, List.getElem?_append_right le_rfl, Nat.sub_self]
      left
      rwa [← List.head?_eq_getElem?]
  · rw [take_take, Nat.min_eq_left (by split at hlen <;> omega)]
  · have hsame := congrArg length hself
    rw [length_take, length_take, length_append] at hsame
    omega

/-! ## Runs -/

/-- A run goes on with calls that satisfy `P`, and directories stay. -/
def Goes (F : FileSystem σ) (P : Effect → Prop) (r r' : Run σ) : Prop :=
  (∃ new, r'.log = r.log ++ new ∧ ∀ e ∈ new, P e) ∧
    ∀ q, F.isDir r.fs q = true → F.isDir r'.fs q = true

variable {P : Effect → Prop} {r r' r'' : Run σ}

theorem Goes.refl (F : FileSystem σ) (P : Effect → Prop) (r : Run σ) : Goes F P r r :=
  ⟨⟨[], by simp, by simp⟩, fun _ h => h⟩

theorem Goes.trans (h : Goes F P r r') (h' : Goes F P r' r'') : Goes F P r r'' := by
  obtain ⟨⟨new, hlog, hnew⟩, hdir⟩ := h
  obtain ⟨⟨new', hlog', hnew'⟩, hdir'⟩ := h'
  refine ⟨⟨new ++ new', by rw [hlog', hlog, append_assoc], fun e he => ?_⟩,
    fun q hq => hdir' q (hdir q hq)⟩
  exact (mem_append.mp he).elim (hnew e) (hnew' e)

theorem Goes.subset (h : Goes F P r r') : r.log ⊆ r'.log := by
  obtain ⟨⟨new, hlog, -⟩, -⟩ := h
  rw [hlog]
  exact subset_append_left _ _

theorem Goes.forall_mem (h : Goes F P ⟨r.fs, []⟩ r') : ∀ e ∈ r'.log, P e := by
  obtain ⟨⟨new, hlog, hnew⟩, -⟩ := h
  rw [hlog]
  exact hnew

/-- Whatever `mkdir` answers, calling it for `p` satisfies `P`. -/
abbrev MayMake (F : FileSystem σ) (P : Effect → Prop) (p : Path) : Prop :=
  ∀ s, P (.mkdir p (F.mkdir s p).1)

theorem ensureDirs_goes {ps : List Path} (h : ∀ p ∈ ps, F.isDir r.fs p = true ∨ MayMake F P p) :
    Goes F P r (ensureDirs F ps r).2 := by
  induction ps generalizing r with
  | nil => exact Goes.refl F P r
  | cons p ps ih =>
    rw [ensureDirs]
    split
    · exact ih fun q hq => h q (mem_cons_of_mem _ hq)
    · rename_i hdir
      have hstep : Goes F P r (r.mkdir F p).2 :=
        ⟨⟨_, rfl, by simpa using (h p mem_cons_self).resolve_left hdir r.fs⟩, F.isDir_mkdir r.fs p⟩
      split
      · rename_i r₁ hmk
        rw [hmk] at hstep
        refine hstep.trans (ih fun q hq => ?_)
        exact (h q (mem_cons_of_mem _ hq)).imp (hstep.2 q) id
      · rename_i r₁ hmk
        rwa [hmk] at hstep

theorem pkgMkdirP_goes (h : path.length < minimafsMaxPath →
      ∀ p ∈ ancestors path, F.isDir r.fs p = true ∨ MayMake F P p) :
    Goes F P r (pkgMkdirP F path r).2 := by
  rw [pkgMkdirP]
  split
  · exact Goes.refl F P r
  · split
    · exact Goes.refl F P r
    · rename_i hlen m hroot
      refine ensureDirs_goes fun p hp => h (by omega) p ?_
      rwa [ancestors, hroot]

theorem makeParent_goes
    (h : ∀ p ∈ ancestors path, p ≠ path → F.isDir r.fs p = true ∨ MayMake F P p) :
    Goes F P r (makeParent F path r).2 := by
  rw [makeParent]
  split
  · exact Goes.refl F P r
  · rename_i parent hparent
    exact pkgMkdirP_goes fun _ p hp =>
      h p (ancestors_parent hparent hp).1 (ancestors_parent hparent hp).2

/-! ## Extracting -/

theorem readRange_some (h : n = 0 ∨ off + n ≤ archive.length) :
    ∃ bytes, readRange archive off n = some bytes := by
  rw [readRange]
  split
  · exact ⟨_, rfl⟩
  · exact ⟨_, if_pos (by omega)⟩

theorem entryData_some (mem : EntryMem) {entry : Entry}
    (hrange : entry.compressedSize.toNat = 0 ∨
      entry.dataOffset.toNat + entry.compressedSize.toNat ≤ archive.length) :
    ∃ data, entryData mem entry archive = some data := by
  obtain ⟨payload, hpayload⟩ := readRange_some hrange
  simp only [entryData, hpayload, Option.bind_eq_bind, Option.bind_some]
  split_ifs <;> exact ⟨_, rfl⟩

abbrev Entry.isDir (entry : Entry) : Prop := entry.flags &&& mpkgFlagDirectory ≠ 0

/-- A file whose bytes are in the archive, if the memory requests go well. -/
def Extracts (archive : List UInt8) (entry : Entry) : Prop :=
  ¬ entry.isDir ∧ ∃ mem data, entryData mem entry archive = some (some data)

/-- The calls that extracting an entry may make satisfy `P`. -/
def Allowed (F : FileSystem σ) (P : Effect → Prop) (targetDir : Path) (archive : List UInt8)
    (fs : σ) (entry : Entry) : Prop :=
  pkgNameIsSafe entry.name = true →
    (∀ p ∈ ancestors (fullPath targetDir entry.name),
      p ≠ fullPath targetDir entry.name ∨ entry.isDir → F.isDir fs p = true ∨ MayMake F P p) ∧
    (Extracts archive entry → ∀ data s, P (.write (fullPath targetDir entry.name) data
      (F.writeFileSegments s (fullPath targetDir entry.name) data).1))

variable {entry : Entry}

theorem Allowed.goes (h : Allowed F P targetDir archive r.fs entry) (hgoes : Goes F P r r') :
    Allowed F P targetDir archive r'.fs entry := fun hsafe =>
  ⟨fun p hp hmade => ((h hsafe).1 p hp hmade).imp (hgoes.2 p) id, (h hsafe).2⟩

theorem pkgExtractEntry_goes (mem : EntryMem) (h : Allowed F P targetDir archive r.fs entry) :
    ∃ ok r', pkgExtractEntry F mem entry archive targetDir r = some (ok, r') ∧ Goes F P r r' := by
  have hfail : ∀ r', Goes F P r r' → ∃ ok r'', some (false, r') = some (ok, r'') ∧ Goes F P r r'' :=
    fun r' h => ⟨_, _, rfl, h⟩
  rw [pkgExtractEntry]
  split
  · exact hfail r (Goes.refl F P r)
  rename_i hsafe
  obtain ⟨hdirs, hwrite⟩ := h (by simpa using hsafe)
  dsimp only
  split
  · exact hfail r (Goes.refl F P r)
  split
  · rename_i hdir
    exact ⟨_, _, rfl, pkgMkdirP_goes fun _ p hp => hdirs p hp (.inr hdir)⟩
  rename_i hfile
  have hmade : Goes F P r (makeParent F (fullPath targetDir entry.name) r).2 :=
    makeParent_goes fun p hp hne => hdirs p hp (.inl hne)
  generalize makeParent F (fullPath targetDir entry.name) r = made at hmade
  obtain ⟨ok, r₁⟩ := made
  split
  · exact hfail r₁ hmade
  split
  · exact hfail r₁ hmade
  · obtain ⟨data, hdata⟩ := entryData_some mem
      (by omega : entry.compressedSize.toNat = 0 ∨
        entry.dataOffset.toNat + entry.compressedSize.toNat ≤ archive.length)
    rw [hdata]
    cases data with
    | none => exact hfail r₁ hmade
    | some data =>
      refine ⟨_, _, rfl, hmade.trans ⟨⟨_, rfl, ?_⟩, F.isDir_write _ _ _⟩⟩
      simpa using hwrite ⟨hfile, mem, data, hdata⟩ data r₁.fs

/-- Entry `i` of the table. -/
def entryOf (archive : List UInt8) (i : ℕ) : Entry :=
  pkgParseEntry ((archive.drop (mpkgHeaderSize + i * mpkgEntrySize)).take mpkgEntrySize)

theorem unzipEntries_goes (mem : ℕ → EntryMem) {i : ℕ} {u : Unzipped σ}
    (hroom : mpkgHeaderSize + (i + n) * mpkgEntrySize ≤ archive.length)
    (h : ∀ k, i ≤ k → k < i + n → Allowed F P targetDir archive u.run.fs (entryOf archive k)) :
    ∃ u', unzipEntries F mem archive targetDir n i u = some u' ∧ Goes F P u.run u'.run := by
  induction n generalizing i u with
  | zero => exact ⟨u, rfl, Goes.refl F P u.run⟩
  | succ n ih =>
    have hraw : readRange archive (mpkgHeaderSize + i * mpkgEntrySize) mpkgEntrySize =
        some ((archive.drop (mpkgHeaderSize + i * mpkgEntrySize)).take mpkgEntrySize) := by
      rw [readRange, if_neg (by decide), if_pos]
      unfold mpkgEntrySize at hroom ⊢
      omega
    obtain ⟨ok, r', hrun, hgoes⟩ := pkgExtractEntry_goes (mem i) (h i le_rfl (by omega))
    rw [unzipEntries, hraw]
    dsimp only [Option.bind_eq_bind, Option.bind_some]
    rw [← entryOf, hrun]
    obtain ⟨u', hrun', hgoes'⟩ := ih (i := i + 1) (u := u.count ok r')
      (by rwa [Nat.add_right_comm]) fun k hk hk' => by
        rw [Unzipped.run_count]
        exact (h k (by omega) (by omega)).goes hgoes
    rw [Unzipped.run_count] at hgoes'
    exact ⟨u', hrun', hgoes.trans hgoes'⟩

/-! ## Whole archives -/

theorem pkgReadU32_some (h : off + 4 ≤ archive.length) : ∃ v, pkgReadU32 archive off = some v := by
  obtain ⟨bytes, hbytes⟩ := readRange_some (.inr h)
  exact ⟨_, by rw [pkgReadU32, hbytes]; rfl⟩

theorem loadOpened_some (heap : Bool) (file : Option Opened) :
    ∃ loaded, loadOpened heap file = some loaded ∧ ∀ archive, loaded = some archive →
      mpkgHeaderSize ≤ archive.length ∧ loadOpened true file = some (some archive) := by
  cases file with
  | none => exact ⟨none, rfl, by simp⟩
  | some file =>
    unfold loadOpened
    dsimp only
    split
    · exact ⟨none, rfl, by simp⟩
    rename_i hfile
    have hlen : mpkgHeaderSize ≤ file.content.length := by omega
    obtain ⟨magic, hmagic⟩ : ∃ bytes, readRange file.content 0 mpkgMagic.length = some bytes :=
      readRange_some (.inr ((by decide : 0 + mpkgMagic.length ≤ 16).trans hlen))
    obtain ⟨version, hversion⟩ := pkgReadU32_some ((by decide : 8 + 4 ≤ 16).trans hlen)
    rw [if_neg (by simp; omega), hmagic, hversion]
    refine ⟨_, rfl, fun archive h => ?_⟩
    dsimp only [Option.bind_eq_bind, Option.bind_some] at h ⊢
    rw [h]
    split at h
    · simp at h
    · cases h
      exact ⟨hlen, rfl⟩

theorem pkgValidateEntryTable_some (h : mpkgHeaderSize ≤ archive.length) :
    ∃ n, pkgValidateEntryTable archive = some n ∧
      mpkgHeaderSize + n * mpkgEntrySize ≤ archive.length := by
  obtain ⟨count, hcount⟩ := pkgReadU32_some ((by decide : 12 + 4 ≤ 16).trans h)
  refine ⟨_, by rw [pkgValidateEntryTable, hcount]; rfl, ?_⟩
  split <;> omega

/-- The path can be made, or tried to. -/
def Makeable (path : Path) : Prop := path.length < minimafsMaxPath ∧ (rootEnd path).isSome

/-- The calls of a run of `pkglib_unzip`, by what is known of the target directory and of the
entries of the table. -/
theorem pkglibUnzip_goes (heap : Bool) (mem : ℕ → EntryMem) (fs : σ) (archivePath targetDir : Path)
    (h : ∀ archive n, loadOpened true (F.openRead fs archivePath) = some (some archive) →
      pkgValidateEntryTable archive = some n → n ≠ 0 →
      F.isDir fs targetDir = true ∨ Makeable targetDir →
      (F.isDir fs targetDir = false →
        ∀ p ∈ ancestors targetDir, F.isDir fs p = true ∨ MayMake F P p) ∧
      ∀ i < n, Allowed F P targetDir archive fs (entryOf archive i)) :
    ∃ u, pkglibUnzip F heap mem fs archivePath targetDir = some u ∧ Goes F P ⟨fs, []⟩ u.run := by
  obtain ⟨loaded, hload, hloaded⟩ := loadOpened_some heap (F.openRead fs archivePath)
  simp only [pkglibUnzip, pkgLoadArchive, hload, Option.bind_eq_bind, Option.bind_some]
  rcases loaded with _ | archive
  · exact ⟨_, rfl, Goes.refl F P _⟩
  obtain ⟨hlen, hload⟩ := hloaded archive rfl
  obtain ⟨n, hn, hroom⟩ := pkgValidateEntryTable_some hlen
  dsimp only
  rw [hn, Option.bind_some]
  split
  · exact ⟨_, rfl, Goes.refl F P _⟩
  rename_i hzero
  have h := h archive n hload hn hzero
  by_cases htarget : F.isDir fs targetDir = true ∨ Makeable targetDir
  swap
  · have hstop : makeTarget F targetDir fs = (false, ⟨fs, []⟩) := by
      rw [makeTarget, if_neg fun h => htarget (.inl h), pkgMkdirP]
      split
      · rfl
      · split
        · rfl
        · rename_i hlen m hroot
          exact absurd (.inr ⟨by omega, by rw [hroot]; rfl⟩) htarget
    rw [hstop]
    exact ⟨_, rfl, Goes.refl F P _⟩
  obtain ⟨hdirs, hentries⟩ := h htarget
  have hmade : Goes F P ⟨fs, []⟩ (makeTarget F targetDir fs).2 := by
    rw [makeTarget]
    split
    · exact Goes.refl F P _
    · rename_i hdir
      exact pkgMkdirP_goes fun _ => hdirs (by simpa using hdir)
  generalize makeTarget F targetDir fs = made at hmade
  obtain ⟨ok, r₁⟩ := made
  split
  · exact ⟨_, rfl, hmade⟩
  · obtain ⟨u, hrun, hgoes⟩ := unzipEntries_goes mem (u := ⟨true, 0, 0, r₁⟩)
      (by rwa [Nat.zero_add]) fun k _ hk => (hentries k (by omega)).goes hmade
    exact ⟨u, hrun, hmade.trans hgoes⟩

/-- No read is outside the archive. -/
theorem pkglibUnzip_some (F : FileSystem σ) (heap : Bool) (mem : ℕ → EntryMem) (fs : σ)
    (archivePath targetDir : Path) :
    ∃ u, pkglibUnzip F heap mem fs archivePath targetDir = some u := by
  obtain ⟨u, hu, -⟩ := pkglibUnzip_goes (F := F) (P := fun _ => True) heap mem fs archivePath
    targetDir fun _ _ _ _ _ _ => ⟨fun _ _ _ => .inr fun _ => trivial,
      fun _ _ _ => ⟨fun _ _ _ => .inr fun _ => trivial, fun _ _ _ => trivial⟩⟩
  exact ⟨u, hu⟩

theorem pkglibUnzip_eq {heap : Bool} {mem : ℕ → EntryMem} {fs : σ} {archivePath : Path}
    (hload : loadOpened heap (F.openRead fs archivePath) = some (some archive))
    (hn : pkgValidateEntryTable archive = some n) (hzero : n ≠ 0) :
    pkglibUnzip F heap mem fs archivePath targetDir =
      if (makeTarget F targetDir fs).1 = false then
        some ⟨false, 0, 0, (makeTarget F targetDir fs).2⟩
      else unzipEntries F mem archive targetDir n 0
        ⟨true, 0, 0, (makeTarget F targetDir fs).2⟩ := by
  simp only [pkglibUnzip, pkgLoadArchive, hload, Option.bind_eq_bind, Option.bind_some, hn,
    if_neg hzero]
  rfl

/-! ## Paths that are cut off -/

theorem fullPath_cut (h : targetDir.length ≤ 1022) :
    fullPath targetDir name = targetDir ++ slash :: name.take (1022 - targetDir.length) := by
  have htext : ([.str targetDir, .char slash, .str name] : List Piece).flatMap Piece.text =
      targetDir ++ slash :: name := by simp [Piece.text]
  have hroom : minimafsMaxPath - 1 - targetDir.length = 1022 - targetDir.length + 1 := by
    unfold minimafsMaxPath
    omega
  rw [fullPath, snprintf_eq, htext, take_append, hroom, take_succ_cons,
    take_of_length_le (by unfold minimafsMaxPath; omega)]

theorem fullPath_long (h : targetDir.length = 1023) : fullPath targetDir name = targetDir := by
  have htext : ([.str targetDir, .char slash, .str name] : List Piece).flatMap Piece.text =
      targetDir ++ slash :: name := by simp [Piece.text]
  rw [fullPath, snprintf_eq, htext]
  exact take_left' h

theorem fullPath_eq (h : targetDir.length + 1 + name.length < minimafsMaxPath) :
    fullPath targetDir name = targetDir ++ slash :: name := by
  unfold minimafsMaxPath at h
  rw [fullPath_cut (by omega), take_of_length_le (by omega)]

theorem length_fullPath_lt : (fullPath targetDir name).length < minimafsMaxPath := by
  rw [fullPath, snprintf_eq]
  exact Nat.lt_of_le_of_lt (length_take_le _ _) (by decide)

theorem zero_notMem_fullPath (ht : (0 : UInt8) ∉ targetDir) (hn : (0 : UInt8) ∉ name) :
    (0 : UInt8) ∉ fullPath targetDir name := by
  rw [fullPath, snprintf_eq]
  intro h
  have h := mem_of_mem_take h
  simp only [flatMap_cons, flatMap_nil, append_nil, mem_append, Piece.text] at h
  rcases h with h | h | h
  · exact ht h
  · exact absurd h (by decide)
  · exact hn h

theorem rootEnd_fullPath (h : Makeable targetDir) : (rootEnd (fullPath targetDir name)).isSome := by
  obtain ⟨hlen, hroot⟩ := h
  unfold minimafsMaxPath at hlen
  by_cases hshort : targetDir.length ≤ 1022
  · obtain ⟨m, hm⟩ := Option.isSome_iff_exists.mp hroot
    rw [fullPath_cut hshort, rootEnd_append hm]
    rfl
  · rwa [fullPath_long (by omega)]

/-- What is left of the name has no `..`. -/
abbrev NoDots (targetDir name : Path) : Prop :=
  ¬ HasComponent dotdot (name.take (1022 - targetDir.length))

theorem inside_fullPath_iff (h : targetDir.length ≤ 1022) :
    Inside targetDir (fullPath targetDir name) ↔ NoDots targetDir name := by
  rw [fullPath_cut h]
  constructor
  · rintro ⟨rel, heq, hrel⟩
    obtain rfl := (List.cons.inj (append_cancel_left heq)).2
    exact hrel
  · exact fun hrel => ⟨_, rfl, hrel⟩

/-- The cut does no harm to an entry with a safe name, where `D` has the directories there are. -/
structure CutSafe (D : Path → Bool) (targetDir : Path) (archive : List UInt8) (entry : Entry) :
    Prop where
  dir : entry.isDir → targetDir.length ≤ 1022 →
    D (fullPath targetDir entry.name) = true ∨ NoDots targetDir entry.name
  file : Extracts archive entry → targetDir.length ≤ 1022 ∧ NoDots targetDir entry.name

theorem CutSafe.allowed {D : Path → Bool} {fs : σ} (h : CutSafe D targetDir archive entry)
    (hD : F.isDir fs = D) (hlen : targetDir.length ≤ 1023)
    (hdirs : ∀ p ∈ ancestors targetDir, D p = true ∨ p = targetDir)
    (hsafe : ¬ HasComponent dotdot entry.name) :
    Allowed F (Effect.Confined targetDir) targetDir archive fs entry := by
  intro _
  have hmake : ∀ p, D p = true ∨ p = targetDir ∨ Inside targetDir p →
      F.isDir fs p = true ∨ MayMake F (Effect.Confined targetDir) p := by
    rintro p (hp | hp)
    · exact .inl (by rw [hD]; exact hp)
    · exact .inr fun _ => hp
  rcases Nat.lt_or_ge 1022 targetDir.length with hlong | hshort
  · have hpath : fullPath targetDir entry.name = targetDir := fullPath_long (by omega)
    rw [hpath]
    refine ⟨fun p hp _ => hmake p ((hdirs p hp).imp_right .inl), fun hextracts => ?_⟩
    exact absurd (h.file hextracts).1 (by omega)
  · refine ⟨fun p hp hmade => hmake p ?_, fun hextracts _ _ => ?_⟩
    · rw [fullPath_cut hshort] at hp
      rcases ancestors_cut hsafe hp with hp | hp | hp
      · exact (hdirs p hp).imp_right .inl
      · exact .inr (.inr hp)
      · rw [← fullPath_cut hshort] at hp
        obtain rfl := hp
        have hdir := hmade.resolve_left fun hne => hne rfl
        exact (h.dir hdir hshort).imp_right fun hdots => .inr ((inside_fullPath_iff hshort).mpr hdots)
    · exact (inside_fullPath_iff hshort).mpr (h.file hextracts).2

/-! ## A file system that never changes -/

/-- Every call goes well, and the directories are those of `D` before and after. -/
def still (D : Path → Bool) (file : Option Opened) : FileSystem Unit where
  fileExists _ p := D p
  isDir _ p := D p
  openRead _ _ := file
  listDir _ _ := []
  mkdir _ _ := (true, ())
  writeFileSegments _ _ _ := (true, ())
  deleteFile _ _ := (false, ())
  isDir_mkdir _ _ _ h := h
  isDir_write _ _ _ _ h := h

section Still

variable {D : Path → Bool} {file : Option Opened} {r : Run Unit}

theorem ensureDirs_still {ps : List Path} : (ensureDirs (still D file) ps r).1 = true ∧
    ∀ p ∈ ps, D p = false → .mkdir p true ∈ (ensureDirs (still D file) ps r).2.log := by
  induction ps generalizing r with
  | nil => exact ⟨rfl, nofun⟩
  | cons p ps ih =>
    rw [ensureDirs]
    split
    · rename_i hdir
      have hdir : D p = true := hdir
      exact ⟨ih.1, forall_mem_cons.mpr ⟨fun h => by simp [hdir] at h, ih.2⟩⟩
    · refine ⟨ih.1, forall_mem_cons.mpr ⟨fun _ => ?_, ih.2⟩⟩
      have hgoes : Goes (still D file) (fun _ => True) (r.mkdir (still D file) p).2
          (ensureDirs (still D file) ps (r.mkdir (still D file) p).2).2 :=
        ensureDirs_goes fun _ _ => .inr fun _ => trivial
      exact hgoes.subset (mem_append_right _ mem_cons_self)

theorem pkgMkdirP_still (h : Makeable path) : (pkgMkdirP (still D file) path r).1 = true ∧
    ∀ p ∈ ancestors path, D p = false → .mkdir p true ∈ (pkgMkdirP (still D file) path r).2.log := by
  obtain ⟨m, hroot⟩ := Option.isSome_iff_exists.mp h.2
  have hpos := length_pos_of_rootEnd h.2
  rw [pkgMkdirP, if_neg (by have := h.1; omega), ancestors, hroot]
  exact ensureDirs_still

theorem makeTarget_still (h : Makeable targetDir) :
    (makeTarget (still D file) targetDir ()).1 = true := by
  rw [makeTarget]
  split
  · rfl
  · exact (pkgMkdirP_still h).1

theorem makeParent_still (h0 : (0 : UInt8) ∉ path) (hlen : path.length < minimafsMaxPath) :
    (makeParent (still D file) path r).1 = true := by
  rw [makeParent]
  split
  · rfl
  · rename_i parent hparent
    obtain ⟨hle, m, hroot⟩ := rootEnd_parent h0 hparent
    exact (pkgMkdirP_still ⟨by omega, by rw [hroot]; rfl⟩).1

theorem pkgExtractEntry_still {mem : EntryMem} {ok : Bool} {r' : Run Unit}
    (hsafe : pkgNameIsSafe entry.name = true)
    (h0 : (0 : UInt8) ∉ fullPath targetDir entry.name)
    (hroot : (rootEnd (fullPath targetDir entry.name)).isSome)
    (hrun : pkgExtractEntry (still D file) mem entry archive targetDir r = some (ok, r')) :
    (entry.isDir → ∀ p ∈ ancestors (fullPath targetDir entry.name), D p = false →
      .mkdir p true ∈ r'.log) ∧
    (¬ entry.isDir → ∀ data, entryData mem entry archive = some (some data) →
      .write (fullPath targetDir entry.name) data true ∈ r'.log) := by
  have hlen : (fullPath targetDir entry.name).length < minimafsMaxPath := length_fullPath_lt
  have hpos := length_pos_of_rootEnd hroot
  rw [pkgExtractEntry, if_neg (by simp [hsafe])] at hrun
  dsimp only at hrun
  rw [if_neg (by omega)] at hrun
  constructor
  · intro hdir p hp hD
    rw [if_pos hdir] at hrun
    obtain rfl : (pkgMkdirP (still D file) (fullPath targetDir entry.name) r).2 = r' :=
      congrArg Prod.snd (Option.some.inj hrun)
    exact (pkgMkdirP_still ⟨hlen, hroot⟩).2 p hp hD
  · intro hfile data hdata
    have hmade : (makeParent (still D file) (fullPath targetDir entry.name) r).1 = true :=
      makeParent_still h0 hlen
    have hrange : ¬ (0 < entry.compressedSize.toNat ∧ (archive.length ≤ entry.dataOffset.toNat ∨
        archive.length < entry.dataOffset.toNat + entry.compressedSize.toNat)) := by
      rintro ⟨hsize, hout⟩
      rw [entryData, readRange, if_neg (by omega), if_neg (by omega)] at hdata
      simp at hdata
    rw [if_neg hfile] at hrun
    rw [hmade, if_neg (by decide), if_neg hrange, hdata] at hrun
    obtain rfl : (Run.write (still D file) _ (fullPath targetDir entry.name) data).2 = r' :=
      congrArg Prod.snd (Option.some.inj hrun)
    exact mem_append_right _ mem_cons_self

end Still

theorem pkgExtractEntry_subset {mem : EntryMem} {ok : Bool}
    (hrun : pkgExtractEntry F mem entry archive targetDir r = some (ok, r')) : r.log ⊆ r'.log := by
  obtain ⟨ok', r'', hrun', hgoes⟩ : ∃ ok' r'', pkgExtractEntry F mem entry archive targetDir r =
      some (ok', r'') ∧ Goes F (fun _ => True) r r'' := pkgExtractEntry_goes mem fun _ => ⟨fun _ _ _ => .inr fun _ => trivial, fun _ _ _ => trivial⟩
  obtain rfl : r'' = r' := congrArg Prod.snd (Option.some.inj (hrun'.symm.trans hrun))
  exact hgoes.subset

theorem unzipEntries_succ {mem : ℕ → EntryMem} {i : ℕ} {u u' : Unzipped σ}
    (hrun : unzipEntries F mem archive targetDir (n + 1) i u = some u') :
    ∃ ok r', pkgExtractEntry F (mem i) (entryOf archive i) archive targetDir u.run = some (ok, r') ∧
      unzipEntries F mem archive targetDir n (i + 1) (u.count ok r') = some u' := by
  rw [unzipEntries] at hrun
  obtain ⟨raw, hraw, hrun⟩ := Option.bind_eq_some_iff.mp hrun
  obtain ⟨⟨ok, r'⟩, hentry, hrest⟩ := Option.bind_eq_some_iff.mp hrun
  rw [readRange, if_neg (by decide)] at hraw
  split at hraw
  · cases hraw
    exact ⟨ok, r', hentry, hrest⟩
  · simp at hraw

theorem unzipEntries_mono {mem : ℕ → EntryMem} {i : ℕ} {u u' : Unzipped σ}
    (hrun : unzipEntries F mem archive targetDir n i u = some u') :
    u.run.log ⊆ u'.run.log ∧ u.failed ≤ u'.failed := by
  induction n generalizing i u with
  | zero =>
    cases hrun
    exact ⟨fun _ h => h, le_rfl⟩
  | succ n ih =>
    obtain ⟨ok, r', hentry, hrest⟩ := unzipEntries_succ hrun
    obtain ⟨hlog, hfailed⟩ := ih hrest
    rw [Unzipped.run_count] at hlog
    refine ⟨fun _ h => hlog (pkgExtractEntry_subset hentry h), le_trans ?_ hfailed⟩
    cases ok
    · exact Nat.le_succ _
    · exact le_rfl

/-- What the run does for entry `k` is in the log at its end. -/
theorem unzipEntries_entry {mem : ℕ → EntryMem} {i k : ℕ} {u u' : Unzipped σ}
    (hrun : unzipEntries F mem archive targetDir n i u = some u') (hik : i ≤ k) (hkn : k < i + n) :
    ∃ r ok r', pkgExtractEntry F (mem k) (entryOf archive k) archive targetDir r = some (ok, r') ∧
      (ok = false → u.failed < u'.failed) ∧ r'.log ⊆ u'.run.log := by
  induction n generalizing i u with
  | zero => omega
  | succ n ih =>
    obtain ⟨ok, r', hentry, hrest⟩ := unzipEntries_succ hrun
    obtain ⟨hlog, hfailed⟩ := unzipEntries_mono hrest
    have hstep : u.failed ≤ (u.count ok r').failed := by
      cases ok
      · exact Nat.le_succ _
      · exact le_rfl
    rcases hik.eq_or_lt with rfl | hlt
    · rw [Unzipped.run_count] at hlog
      refine ⟨_, ok, r', hentry, fun hok => ?_, hlog⟩
      subst hok
      exact hfailed
    · obtain ⟨r, ok', r'', hk, hfail, hsub⟩ := ih hrest hlt (by omega)
      exact ⟨r, ok', r'', hk, fun h => hstep.trans_lt (hfail h), hsub⟩

theorem cutSafe_of_confined {D : Path → Bool} (file : Option Opened) {entry : Entry}
    (h0 : (0 : UInt8) ∉ targetDir) (hmake : Makeable targetDir)
    (hsafe : pkgNameIsSafe entry.name = true) (hname : (0 : UInt8) ∉ entry.name)
    (hruns : ∀ mem, ∃ r ok r', pkgExtractEntry (still D file) mem entry archive targetDir r =
      some (ok, r') ∧ ∀ e ∈ r'.log, e.Confined targetDir) : CutSafe D targetDir archive entry := by
  have hlen := hmake.1
  have hroot : (rootEnd (fullPath targetDir entry.name)).isSome := rootEnd_fullPath hmake
  have hzero := zero_notMem_fullPath h0 hname
  unfold minimafsMaxPath at hlen
  refine ⟨fun hdir hshort => or_iff_not_imp_left.mpr fun hDp => ?_, fun hextracts => ?_⟩
  · obtain ⟨r, ok, r', hentry, hlog⟩ := hruns ⟨true, none⟩
    obtain ⟨m, hm⟩ := Option.isSome_iff_exists.mp hmake.2
    have hself : fullPath targetDir entry.name ∈ ancestors (fullPath targetDir entry.name) := by
      rw [fullPath_cut hshort]
      exact self_mem_ancestors hm
    rcases hlog _ ((pkgExtractEntry_still hsafe hzero hroot hentry).1 hdir _ hself
      (by simpa using hDp)) with heq | hin
    · have := congrArg length heq
      rw [fullPath_cut hshort, length_append, length_cons] at this
      omega
    · exact (inside_fullPath_iff hshort).mp hin
  · obtain ⟨hfile, mem, data, hdata⟩ := hextracts
    obtain ⟨r, ok, r', hentry, hlog⟩ := hruns mem
    have hin : Inside targetDir (fullPath targetDir entry.name) :=
      hlog _ ((pkgExtractEntry_still hsafe hzero hroot hentry).2 hfile data hdata)
    by_cases hshort : targetDir.length ≤ 1022
    · exact ⟨hshort, (inside_fullPath_iff hshort).mp hin⟩
    · have := length_lt_of_inside hin
      rw [fullPath_long (by omega)] at this
      omega

/-- **Confinement.** Whatever the archive holds, nothing is read outside of it. And whatever the
file system answers, every path that is created or written is inside the target directory, or is
that directory, exactly when the archive is refused, the target is neither there nor can be made,
or the directories above it are there and the cut does no harm to any entry with a safe name. -/
theorem unzip_confined_iff (D : Path → Bool) (file : Option Opened) (archivePath targetDir : Path)
    (h0 : (0 : UInt8) ∉ targetDir)
    (hD : D targetDir = true → Makeable targetDir ∧ ∀ p ∈ ancestors targetDir, D p = true) :
    (∀ (σ : Type) (F : FileSystem σ) heap mem fs, ∃ u,
      pkglibUnzip F heap mem fs archivePath targetDir = some u) ∧
    ((∀ (σ : Type) (F : FileSystem σ) heap mem fs u, F.isDir fs = D →
        F.openRead fs archivePath = file →
        pkglibUnzip F heap mem fs archivePath targetDir = some u →
        ∀ e ∈ u.run.log, e.Confined targetDir) ↔
      ∀ archive n, loadOpened true file = some (some archive) →
        pkgValidateEntryTable archive = some n → n ≠ 0 → D targetDir = true ∨ Makeable targetDir →
        (∀ p ∈ ancestors targetDir, D p = true ∨ p = targetDir) ∧
        ∀ i < n, pkgNameIsSafe (entryOf archive i).name = true →
          CutSafe D targetDir archive (entryOf archive i)) := by
  refine ⟨fun σ F heap mem fs => pkglibUnzip_some F heap mem fs archivePath targetDir,
    fun hall archive n hload hn hzero htarget => ?_,
    fun hcond σ F heap mem fs u hdirs hopen hrun => ?_⟩
  · have hmake : Makeable targetDir := htarget.elim (fun h => (hD h).1) id
    -- the run on the file system that never changes
    have hstill : ∀ mem, ∃ u, unzipEntries (still D file) mem archive targetDir n 0
          ⟨true, 0, 0, (makeTarget (still D file) targetDir ()).2⟩ = some u ∧
        ∀ e ∈ u.run.log, e.Confined targetDir := fun mem => by
      obtain ⟨u, hu⟩ := pkglibUnzip_some (still D file) true mem () archivePath targetDir
      have hlog := hall Unit (still D file) true mem () u rfl rfl hu
      rw [pkglibUnzip_eq hload hn hzero, if_neg (by simp [makeTarget_still hmake])] at hu
      exact ⟨u, hu, hlog⟩
    refine ⟨fun p hp => or_iff_not_imp_left.mpr fun hDp => ?_, fun i hi hsafe => ?_⟩
    · have hfresh : D targetDir = false := by
        by_contra h
        exact hDp ((hD (by simpa using h)).2 p hp)
      obtain ⟨u, hu, hlog⟩ := hstill fun _ => ⟨true, none⟩
      have hmem : .mkdir p true ∈ (makeTarget (still D file) targetDir ()).2.log := by
        rw [makeTarget, if_neg (by simp [still, hfresh])]
        exact (pkgMkdirP_still hmake).2 p hp (by simpa using hDp)
      refine (hlog _ ((unzipEntries_mono hu).1 hmem)).resolve_right fun hin => ?_
      have := length_lt_of_inside hin
      have := length_le_of_mem_ancestors hp
      omega
    · refine cutSafe_of_confined file h0 hmake hsafe (zero_notMem_cstr _) fun mem => ?_
      obtain ⟨u, hu, hlog⟩ := hstill fun _ => mem
      obtain ⟨r, ok, r', hentry, -, hsub⟩ := unzipEntries_entry hu (Nat.zero_le i) (by omega)
      exact ⟨r, ok, r', hentry, fun e he => hlog e (hsub he)⟩
  · obtain ⟨u', hu', hgoes⟩ := pkglibUnzip_goes (F := F) (P := Effect.Confined targetDir) heap mem fs
      archivePath targetDir fun archive n hload hn hzero htarget => by
        rw [hopen] at hload
        rw [hdirs] at htarget ⊢
        obtain ⟨habove, hentries⟩ := hcond archive n hload hn hzero htarget
        have hmake : Makeable targetDir := htarget.elim (fun h => (hD h).1) id
        have hlen := hmake.1
        unfold minimafsMaxPath at hlen
        refine ⟨fun _ p hp => (habove p hp).imp_right fun h _ => .inl h, fun i hi hsafe => ?_⟩
        exact (hentries i hi hsafe).allowed hdirs (by omega) habove
          (not_hasComponent_of_safe hsafe) hsafe
    obtain rfl : u' = u := Option.some.inj (hu'.symm.trans hrun)
    exact hgoes.forall_mem (r := ⟨fs, []⟩)

def emptyFile (name : List UInt8) : List UInt8 :=
  mpkgMagic ++ Packed.u32.enc 1 ++ Packed.u32.enc 1 ++ name ++
    List.replicate (mpkgNameSize - name.length) 0 ++ fieldsLayout.enc ⟨0, 0, 0, 0, 0⟩

theorem unzip_confined_sample : pkgValidateEntryTable (emptyFile (ascii "lib/x")) = some 1 ∧
    ∀ (σ : Type) (F : FileSystem σ) heap mem fs u, F.isDir fs = (fun p => p = ascii "0:/a") →
      F.openRead fs (ascii "0:/p.mpkg") = some ⟨164, emptyFile (ascii "lib/x")⟩ →
      pkglibUnzip F heap mem fs (ascii "0:/p.mpkg") (ascii "0:/a") = some u →
      ∀ e ∈ u.run.log, e.Confined (ascii "0:/a") := by
  have hload : loadOpened true (some ⟨164, emptyFile (ascii "lib/x")⟩) =
      some (some (emptyFile (ascii "lib/x"))) := by decide +kernel
  have hcount : pkgValidateEntryTable (emptyFile (ascii "lib/x")) = some 1 := by decide +kernel
  have hname : (entryOf (emptyFile (ascii "lib/x")) 0).name = ascii "lib/x" := by decide +kernel
  refine ⟨hcount, (unzip_confined_iff _ _ _ _ (by decide) fun _ =>
    ⟨⟨by decide, by decide⟩, by decide +kernel⟩).2.mpr fun archive n hload' hcount' _ _ => ?_⟩
  obtain rfl := Option.some.inj (Option.some.inj (hload'.symm.trans hload))
  obtain rfl := Option.some.inj (hcount'.symm.trans hcount)
  refine ⟨by decide +kernel, fun i hi hsafe => ?_⟩
  obtain rfl : i = 0 := by omega
  have hdots : NoDots (ascii "0:/a") (entryOf (emptyFile (ascii "lib/x")) 0).name := by
    rw [hname] at hsafe ⊢
    exact not_hasComponent_of_safe hsafe
  exact ⟨fun _ _ => .inr hdots, fun _ => ⟨by decide, hdots⟩⟩

def longTarget : Path :=
  ascii "0:/" ++ (List.replicate 15 (List.replicate 63 97 ++ [slash])).flatten ++ List.replicate 55 97

/-- The name `x/..y` is a safe one, but behind a target with a path of 1018 bytes the last byte of
the whole path is cut off, and the path that is written ends with `x/..`. -/
theorem truncated_name_leaves :
    pkgNameIsSafe (ascii "x/..y") = true ∧
      ∃ u, pkglibUnzip (still (fun p => p ∈ ancestors (longTarget ++ ascii "/x"))
          (some ⟨164, emptyFile (ascii "x/..y")⟩)) true (fun _ => ⟨true, none⟩) ()
          (ascii "0:/p.mpkg") longTarget = some u ∧
        .write (longTarget ++ ascii "/x/..") [] true ∈ u.run.log ∧
        ¬ Inside longTarget (longTarget ++ ascii "/x/..") := by
  have hlen : longTarget.length = 1018 := by decide +kernel
  have h0 : (0 : UInt8) ∉ longTarget := by decide +kernel
  have hmake : Makeable longTarget := ⟨by rw [hlen]; decide, by decide +kernel⟩
  have hload : loadOpened true (some ⟨164, emptyFile (ascii "x/..y")⟩) =
      some (some (emptyFile (ascii "x/..y"))) := by decide +kernel
  have hcount : pkgValidateEntryTable (emptyFile (ascii "x/..y")) = some 1 := by decide +kernel
  have hentry : entryOf (emptyFile (ascii "x/..y")) 0 = ⟨⟨0, 0, 0, 0, 0⟩, ascii "x/..y"⟩ := by
    decide +kernel
  have hdata : entryData ⟨true, none⟩ ⟨⟨0, 0, 0, 0, 0⟩, ascii "x/..y"⟩
      (emptyFile (ascii "x/..y")) = some (some []) := by decide +kernel
  generalize longTarget = t at hlen h0 hmake
  generalize emptyFile (ascii "x/..y") = archive at hload hcount hentry hdata
  have hpath : fullPath t (ascii "x/..y") = t ++ ascii "/x/.." := by
    rw [fullPath_cut (by omega), hlen]
    rfl
  obtain ⟨u, hu⟩ := pkglibUnzip_some (still (fun p => p ∈ ancestors (t ++ ascii "/x"))
    (some ⟨164, archive⟩)) true (fun _ => ⟨true, none⟩) () (ascii "0:/p.mpkg") t
  refine ⟨by decide, u, hu, ?_, ?_⟩
  · rw [pkglibUnzip_eq hload hcount one_ne_zero, if_neg (by simp [makeTarget_still hmake])] at hu
    obtain ⟨r, ok, r', hrun, -, hsub⟩ := unzipEntries_entry hu le_rfl Nat.one_pos
    rw [hentry] at hrun
    rw [← hpath]
    refine hsub ((pkgExtractEntry_still (by decide) ?_ (rootEnd_fullPath hmake) hrun).2 (by decide)
      [] hdata)
    exact zero_notMem_fullPath h0 (by decide)
  · rw [← hpath, inside_fullPath_iff (by omega), NoDots, hlen]
    exact not_not.mpr ⟨ascii "x/", [], by decide, by decide, by decide⟩

end MinimalOS.Pkg
