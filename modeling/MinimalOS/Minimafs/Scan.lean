import MinimalOS.Lib.Descent
import MinimalOS.Minimafs.Tree

/-!
# The scan of a volume

`minimafs_mount` rebuilds the allocator by a scan from the root: each directory's entries are
marked as used and then its subdirectories are scanned, wherever the disk says they are. The scan
keeps no record of the directories it is in. So it ends exactly when no directory lies within
itself, and then it is no deeper than there are block numbers.
-/

namespace MinimalOS.Minimafs

open CString Fs Relation

variable {α : Type} {d : Drive} {env : Env} {disk : ℕ → Block}

/-! ## Directories within directories -/

/-- Block `c` is named as a subdirectory by the directory in block `b`. -/
def Drive.Subdir (d : Drive) (b c : ℕ) : Prop :=
  ∃ e ∈ (d.folderAt b).entries, e.type = .dir ∧ e.blockOffset = c

theorem Drive.dirBlock_iff {b : ℕ} :
    d.DirBlock b ↔ ReflTransGen d.Subdir d.storageDesc.rootBlock b := by
  constructor
  · intro h
    induction h with
    | root => exact .refl
    | child _ he htype ih => exact ih.tail ⟨_, he, htype, rfl⟩
  · intro h
    induction h with
    | refl => exact .root
    | tail _ hsub ih =>
      obtain ⟨e, he, htype, rfl⟩ := hsub
      exact ih.child he htype

theorem parseUint32_lt (s : List UInt8) : parseUint32 s < 2 ^ 32 := by
  have hfold : ∀ digits : List UInt8,
      digits.foldl (fun r c => (r * 10 + (c.toNat - 48)) % 2 ^ 32) 0 < 2 ^ 32 := by
    intro digits
    obtain rfl | ⟨cs, c, rfl⟩ := digits.eq_nil_or_concat
    · decide
    · rw [List.concat_eq_append, List.foldl_append]
      exact Nat.mod_lt _ (by decide)
  exact hfold _

theorem parseFolderLine_offsets {desc : FolderDesc} {line : List UInt8}
    (h : ∀ e ∈ desc.entries, e.blockOffset < 2 ^ 32) :
    ∀ e ∈ (parseFolderLine desc line).entries, e.blockOffset < 2 ^ 32 := by
  unfold parseFolderLine
  split_ifs
  · exact h
  · cases hline : parseFolderEntryLine line with
    | none => exact h
    | some x =>
      have hx : x.blockOffset < 2 ^ 32 := by
        unfold parseFolderEntryLine at hline
        split_ifs at hline
        obtain ⟨comma, -, hline⟩ := Option.bind_eq_some_iff.mp hline
        obtain ⟨blockTag, -, rfl⟩ := Option.map_eq_some_iff.mp hline
        exact parseUint32_lt _
      intro e he
      rcases List.mem_append.mp he with he | he
      · exact h e he
      · exact List.mem_singleton.mp he ▸ hx
  · exact h

theorem Drive.Subdir.lt {b c : ℕ} (h : d.Subdir b c) : c < 2 ^ 32 := by
  obtain ⟨e, he, -, rfl⟩ := h
  have hfold : ∀ (lines : List (List UInt8)) (desc : FolderDesc),
      (∀ e ∈ desc.entries, e.blockOffset < 2 ^ 32) →
        ∀ e ∈ (lines.foldl parseFolderLine desc).entries, e.blockOffset < 2 ^ 32 := by
    intro lines
    induction lines with
    | nil => exact fun _ h => h
    | cons line lines ih => exact fun _ h => ih _ (parseFolderLine_offsets h)
  exact hfold _ _ (fun _ he => absurd he List.not_mem_nil) e he

/-! ## How the scan ends -/

/-- On this disk the operation changes nothing but the books and runs to its end, except that it
may run out of rounds if `deep`, and does if its reads succeed. -/
structure Ends (env : Env) (disk : ℕ → Block) (deep : Prop) (m : Fs Unit) : Prop where
  books : ∀ d, d.disk = disk → ∃ a t, (m d).2 = d.rebooked a t
  ok : ∀ d, d.disk = disk → ¬ deep → (m d).1 = .ok ⟨⟩
  looping : ∀ d, d.disk = disk → env.Reads → deep → (m d).1 = .error .looping

theorem Ends.keeps {m : Fs Unit} {deep : Prop} (h : Ends env disk deep m) (hd : d.disk = disk) :
    (m d).2.disk = disk := by
  obtain ⟨a, t, ht⟩ := h.books d hd
  rw [ht]
  exact hd

theorem Ends.of_ok {m : Fs Unit} (h : ∀ d, ∃ a t, m d = (.ok ⟨⟩, d.rebooked a t)) :
    Ends env disk False m := by
  refine ⟨fun d _ => ?_, fun d _ _ => ?_, fun _ _ _ hdeep => hdeep.elim⟩
  · obtain ⟨a, t, ht⟩ := h d
    exact ⟨a, t, by rw [ht]⟩
  · obtain ⟨a, t, ht⟩ := h d
    rw [ht]

theorem Ends.bind {m n : Fs Unit} {p q : Prop} (hm : Ends env disk p m)
    (hn : Ends env disk q n) : Ends env disk (p ∨ q) (m >>= fun _ => n) := by
  have hrun : ∀ d, (m d).1 = .ok ⟨⟩ → (m >>= fun _ => n) d = n (m d).2 := fun d hres =>
    bind_ok (Prod.ext hres rfl : m d = (.ok ⟨⟩, (m d).2))
  refine ⟨fun d hd => ?_, fun d hd hnot => ?_, fun d hd hread hdeep => ?_⟩
  · obtain ⟨a, t, ht⟩ := hm.books d hd
    cases hres : (m d).1 with
    | error e => exact ⟨a, t, by rw [bind_error (Prod.ext hres ht : m d = (.error e, d.rebooked a t))]⟩
    | ok =>
      obtain ⟨a', t', ht'⟩ := hn.books (d.rebooked a t) hd
      exact ⟨a', t', by rw [hrun d hres, ht, ht']; rfl⟩
  · rw [hrun d (hm.ok d hd fun h => hnot (.inl h))]
    exact hn.ok _ (hm.keeps hd) fun h => hnot (.inr h)
  · by_cases hp : p
    · exact bind_fst_error (hm.looping d hd hread hp)
    · rw [hrun d (hm.ok d hd hp)]
      exact hn.looping _ (hm.keeps hd) hread (hdeep.resolve_left hp)

theorem Ends.forM {f : α → Fs Unit} {p : α → Prop} {l : List α}
    (h : ∀ x ∈ l, Ends env disk (p x) (f x)) : Ends env disk (∃ x ∈ l, p x) (l.forM f) := by
  induction l with
  | nil =>
    have hnil : Ends env disk False (List.forM [] f) := Ends.of_ok fun d => ⟨d.alloc, d.moment, rfl⟩
    simpa using hnil
  | cons x l ih =>
    rw [List.exists_mem_cons_iff]
    exact (h x List.mem_cons_self).bind (ih fun y hy => h y (List.mem_cons_of_mem x hy))

theorem ends_markUsed (block count : ℕ) : Ends env disk False (markUsed env block count) :=
  Ends.of_ok fun _ => ⟨_, _, rfl⟩

theorem calcFileBlockCount_looks (env : Env) (block : ℕ) (d : Drive) :
    ∃ count, Looks (calcFileBlockCount env block) d count := by
  obtain ⟨r, hr⟩ := Soft.looks_attempt
    (soft_request.bind fun _ => (soft_readBlock env block).bind fun b =>
      soft_request.bind fun _ => Soft.of_pure ((parseFileHeader b.bytes).getD {}))
    (quiet_request.bind fun _ => (quiet_readBlock block).bind fun b =>
      quiet_request.bind fun _ => Quiet.of_pure ((parseFileHeader b.bytes).getD {})) d
  cases r with
  | none => exact ⟨_, hr.bind fun _ => Looks.of_pure _⟩
  | some m => exact ⟨_, hr.bind fun _ => Looks.of_pure _⟩

theorem ends_scanEntry (e : DirEntry) : Ends env disk False (scanEntry env e) := by
  unfold scanEntry
  split_ifs
  · exact ends_markUsed _ _
  · refine Ends.of_ok fun d => ?_
    obtain ⟨count, t, ht⟩ := calcFileBlockCount_looks env e.blockOffset d
    exact ⟨_, _, by rw [bind_ok ht]; rfl⟩
  · exact ends_markUsed _ _

theorem attempt_readFolderDescBlock (env : Env) (block : ℕ) (d : Drive) :
    (¬ env.Reads ∧ Looks (attempt (readFolderDescBlock env block)) d none) ∨
      Looks (attempt (readFolderDescBlock env block)) d (some (d.folderAt block)) := by
  have hrun := readBlock_eq env block d
  by_cases hok : env.readOk d.moment block = true
  · rw [if_pos hok] at hrun
    exact .inr (Looks.attempt ⟨_, by rw [readFolderDescBlock, bind_ok hrun]; rfl⟩)
  · rw [if_neg hok] at hrun
    refine .inl ⟨fun h => hok (h _ _), d.moment + 1, ?_⟩
    unfold attempt readFolderDescBlock
    rw [bind_error hrun]

theorem ends_subdirs (d : Drive) (n block : ℕ)
    (ih : ∀ block, Ends env d.disk (Descent.Deep d.Subdir n block) (scanDirectory env n block)) :
    Ends env d.disk (Descent.Deep d.Subdir (n + 1) block)
      ((d.folderAt block).entries.forM (scanEntry env) >>= fun _ =>
        ((d.folderAt block).entries.filter fun e => e.type = .dir).forM fun e =>
          scanDirectory env n e.blockOffset) := by
  have hdeep : Descent.Deep d.Subdir (n + 1) block ↔
      (∃ e ∈ (d.folderAt block).entries, False) ∨
        ∃ e ∈ (d.folderAt block).entries.filter fun e => e.type = .dir,
          Descent.Deep d.Subdir n e.blockOffset := by
    constructor
    · rintro ⟨_, ⟨e, he, htype, rfl⟩, h⟩
      exact .inr ⟨e, List.mem_filter.mpr ⟨he, decide_eq_true htype⟩, h⟩
    · rintro (⟨_, _, h⟩ | ⟨e, he, h⟩)
      · exact h.elim
      · obtain ⟨he, htype⟩ := List.mem_filter.mp he
        exact ⟨_, ⟨e, he, of_decide_eq_true htype, rfl⟩, h⟩
  rw [hdeep]
  exact (Ends.forM fun e _ => ends_scanEntry e).bind (Ends.forM fun e _ => ih e.blockOffset)

/-- **The depth of the scan.** With `n` rounds it runs to its end unless there are `n` directories
within each other. -/
theorem ends_scanDirectory (env : Env) (d : Drive) (n block : ℕ) :
    Ends env d.disk (Descent.Deep d.Subdir n block) (scanDirectory env n block) := by
  induction n generalizing block with
  | zero =>
    exact ⟨fun d _ => ⟨d.alloc, d.moment, rfl⟩, fun _ _ h => absurd trivial h, fun _ _ _ _ => rfl⟩
  | succ n ih =>
    have hrest := ends_subdirs d n block ih
    have hstep : ∀ d₁ : Drive, d₁.disk = d.disk →
        (¬ env.Reads ∧ ∃ t, scanDirectory env (n + 1) block d₁ = (.ok ⟨⟩, d₁.later t)) ∨
        ∃ t, scanDirectory env (n + 1) block d₁ =
          ((d.folderAt block).entries.forM (scanEntry env) >>= fun _ =>
            ((d.folderAt block).entries.filter fun e => e.type = .dir).forM fun e =>
              scanDirectory env n e.blockOffset) (d₁.later t) := by
      intro d₁ hd
      have hfolder : d₁.folderAt block = d.folderAt block := by
        rw [Drive.folderAt, hd]
        rfl
      rcases attempt_readFolderDescBlock env block d₁ with ⟨hnot, t, ht⟩ | ⟨t, ht⟩
      · exact .inl ⟨hnot, t, by rw [scanDirectory, bind_ok ht]; rfl⟩
      · refine .inr ⟨t, ?_⟩
        rw [hfolder] at ht
        rw [scanDirectory, bind_ok ht]
    refine ⟨fun d₁ hd => ?_, fun d₁ hd hnot => ?_, fun d₁ hd hread hdeep => ?_⟩
    · rcases hstep d₁ hd with ⟨-, t, ht⟩ | ⟨t, ht⟩
      · exact ⟨d₁.alloc, t, by rw [ht]; rfl⟩
      · rw [ht]
        exact hrest.books (d₁.later t) hd
    · rcases hstep d₁ hd with ⟨-, t, ht⟩ | ⟨t, ht⟩
      · rw [ht]
      · rw [ht]
        exact hrest.ok _ hd hnot
    · rcases hstep d₁ hd with ⟨hfails, -⟩ | ⟨t, ht⟩
      · exact absurd hread hfails
      · rw [ht]
        exact hrest.looping _ hd hread hdeep

/-- **The scan of a volume.** There is a depth that the scan from the root keeps to on every
machine exactly when no directory of the volume lies within itself. -/
theorem scan_bounded_iff (d : Drive) :
    (∃ n, ∀ env, (scanDirectory env n d.storageDesc.rootBlock d).1 = .ok ⟨⟩) ↔
      ∀ block, d.DirBlock block → ¬ TransGen d.Subdir block block := by
  constructor
  · rintro ⟨n, hn⟩ block hdir hcycle
    have hdeep := Descent.deep_of_cycle (Drive.dirBlock_iff.mp hdir) hcycle n
    have hloop := (ends_scanDirectory calmEnv d n _).looping d rfl (fun _ _ => rfl) hdeep
    rw [hn calmEnv] at hloop
    cases hloop
  · intro hacyclic
    refine ⟨(Finset.range (2 ^ 32)).card + 1, fun env => ?_⟩
    refine (ends_scanDirectory env d _ _).ok d rfl (Descent.not_deep ?_ ?_)
    · exact fun a b hab => Finset.mem_range.mpr hab.lt
    · exact fun b hb => hacyclic b (Drive.dirBlock_iff.mpr hb)

/-- A volume whose root directory names itself as a subdirectory. -/
def loopDrive : Drive :=
  { calmDrive with
    storageDesc := { rootBlock := 1 }
    disk := fun _ => Block.ofBytes (ascii "FOLDER:/\nENTRIES:1\nENTRY:a,DIR,BLOCK:1\n@END\n") }

theorem folderAt_loop : (loopDrive.folderAt 1).entries = [⟨ascii "a", .dir, 1, 1, false⟩] := by
  decide +kernel

/-- The scan of that volume runs deeper than any bound. -/
theorem scan_unbounded : ¬ ∃ n,
    (scanDirectory calmEnv n loopDrive.storageDesc.rootBlock loopDrive).1 ≠ .error .looping := by
  rintro ⟨n, hn⟩
  refine hn ?_
  have hself : loopDrive.Subdir 1 1 :=
    ⟨⟨ascii "a", .dir, 1, 1, false⟩, by rw [folderAt_loop]; exact List.mem_singleton_self _, rfl, rfl⟩
  exact (ends_scanDirectory calmEnv loopDrive n 1).looping loopDrive rfl (fun _ _ => rfl)
    (Descent.deep_of_cycle .refl (.single hself) n)

end MinimalOS.Minimafs
