import MinimalOS.Lib.Blocks
import MinimalOS.Minimafs.Files

/-!
# Operations on a machine that serves them

How the steps of an operation compose, and what the calls to the machine do when it serves them:
they return what they should and move the drive on by some moments.
-/

namespace MinimalOS.Minimafs

open Fs

variable {α β : Type} {d d' : Drive} {env : Env}

/-! ## Composing steps -/

namespace Fs

variable {m : Fs α} {f : α → Fs β} {a : α} {b : β} {cleanup : Fs Unit} {p : Prop}

theorem bind_ok (h : m d = (.ok a, d')) : (m >>= f) d = f a d' := by
  show (ExceptT.bindCont f (m d).1) (m d).2 = _
  rw [h]
  rfl

theorem bind_error {e : Stop} (h : m d = (.error e, d')) : (m >>= f) d = (.error e, d') := by
  show (ExceptT.bindCont f (m d).1) (m d).2 = _
  rw [h]
  rfl

/-- A sequence that succeeds does so in both parts. -/
theorem bind_eq_ok (h : (m >>= f) d = (.ok b, d')) :
    ∃ a d₁, m d = (.ok a, d₁) ∧ f a d₁ = (.ok b, d') := by
  cases hres : m d with
  | mk r d₁ =>
    cases r with
    | error e =>
      rw [bind_error hres] at h
      cases h
    | ok a => exact ⟨a, d₁, rfl, by rw [← h, bind_ok hres]⟩

theorem attempt_eq_some (h : attempt m d = (.ok (some a), d')) : m d = (.ok a, d') := by
  unfold attempt at h
  split at h <;> cases h
  assumption

theorem bind_fst_error {e : Stop} (h : (m d).1 = .error e) : ((m >>= f) d).1 = .error e := by
  rw [bind_error (Prod.ext h rfl : m d = (.error e, (m d).2))]

theorem attempt_ok (h : m d = (.ok a, d')) : attempt m d = (.ok (some a), d') := by
  unfold attempt
  rw [h]

theorem attempt_failed (h : m d = (.error .failed, d')) : attempt m d = (.ok none, d') := by
  unfold attempt
  rw [h]

theorem onFail_ok (h : m d = (.ok a, d')) : onFail m cleanup d = (.ok a, d') := by
  unfold onFail
  rw [bind_ok (attempt_ok h)]
  rfl

theorem onFail_looping (h : m d = (.error .looping, d')) :
    (onFail m cleanup d).1 = .error .looping := by
  refine bind_fst_error ?_
  unfold attempt
  rw [h]

theorem require_true [Decidable p] (h : p) : require p d = (.ok ⟨⟩, d) := by
  unfold require
  rw [if_pos h]
  rfl

theorem require_false [Decidable p] (h : ¬ p) : require p d = (.error .failed, d) := by
  unfold require
  rw [if_neg h]
  rfl

end Fs

def Drive.later (d : Drive) (t : ℕ) : Drive := { d with moment := t }

@[simp] theorem Drive.later_later (d : Drive) (t u : ℕ) : (d.later t).later u = d.later u := rfl

@[simp] theorem Drive.later_disk (d : Drive) (t : ℕ) : (d.later t).disk = d.disk := rfl

@[simp] theorem Drive.later_mounted (d : Drive) (t : ℕ) : (d.later t).mounted = d.mounted := rfl

@[simp] theorem Drive.later_alloc (d : Drive) (t : ℕ) : (d.later t).alloc = d.alloc := rfl

@[simp] theorem Drive.later_storageDesc (d : Drive) (t : ℕ) :
    (d.later t).storageDesc = d.storageDesc := rfl

@[simp] theorem Drive.later_run (d : Drive) (t start count : ℕ) :
    (d.later t).run start count = d.run start count := rfl

theorem Drive.later_moment (d : Drive) : d.later d.moment = d := rfl

theorem get_run : (get : Fs Drive) d = (.ok d, d) := rfl

theorem modify_run (f : Drive → Drive) : (modify f : Fs PUnit) d = (.ok ⟨⟩, f d) := rfl

theorem moment_run : moment d = (.ok d.moment, d.later (d.moment + 1)) := rfl

/-- A request that is granted takes one moment. -/
theorem request_run (h : env.heap d.moment = true) :
    request env d = (.ok ⟨⟩, d.later (d.moment + 1)) := by
  unfold request
  rw [bind_ok moment_run, require_true h]

/-- The operation returns `a` and changes nothing but the moment. -/
def Looks (m : Fs α) (d : Drive) (a : α) : Prop := ∃ t, m d = (.ok a, d.later t)

theorem Looks.of_pure (a : α) : Looks (pure a : Fs α) d a := ⟨d.moment, rfl⟩

theorem Looks.bind (hm : Looks m d a)
    (hf : ∀ t, Looks (f a) (d.later t) b) : Looks (m >>= f) d b := by
  obtain ⟨t, ht⟩ := hm
  obtain ⟨u, hu⟩ := hf t
  exact ⟨u, by rw [bind_ok ht, hu, Drive.later_later]⟩

theorem Looks.eq {b : α} (hm : Looks m d a) (h : m d = (.ok b, d')) :
    b = a ∧ ∃ t, d' = d.later t := by
  obtain ⟨t, ht⟩ := hm
  obtain ⟨hb, hd⟩ := Prod.mk.inj (h.symm.trans ht)
  exact ⟨Except.ok.inj hb, t, hd⟩

theorem Looks.attempt (hm : Looks m d a) : Looks (attempt m) d (some a) := by
  obtain ⟨t, ht⟩ := hm
  exact ⟨t, attempt_ok ht⟩

theorem looks_moment : Looks moment d d.moment := ⟨d.moment + 1, rfl⟩

theorem looks_require [Decidable p] (h : p) : Looks (require p) d ⟨⟩ :=
  ⟨d.moment, require_true h⟩

/-! ## Operations that write nothing -/

/-- Whatever the operation returns, it changes nothing but the moment. -/
def Quiet (m : Fs α) : Prop := ∀ d, ∃ t, (m d).2 = d.later t

theorem Quiet.of_pure (a : α) : Quiet (pure a : Fs α) := fun d => ⟨d.moment, rfl⟩

theorem Quiet.of_get : Quiet (get : Fs Drive) := fun d => ⟨d.moment, rfl⟩

theorem Quiet.of_failed : Quiet (failed : Fs α) := fun d => ⟨d.moment, rfl⟩

theorem Quiet.of_crashed : Quiet (crashed : Fs α) := fun d => ⟨d.moment, rfl⟩

theorem Quiet.bind (hm : Quiet m) (hf : ∀ a, Quiet (f a)) : Quiet (m >>= f) := by
  intro d
  obtain ⟨t, ht⟩ := hm d
  cases hres : (m d).1 with
  | error e =>
    exact ⟨t, by rw [bind_error (Prod.ext hres ht : m d = (.error e, d.later t))]⟩
  | ok a =>
    obtain ⟨u, hu⟩ := hf a (d.later t)
    exact ⟨u, by rw [bind_ok (Prod.ext hres ht : m d = (.ok a, d.later t)), hu, Drive.later_later]⟩

theorem Quiet.later (hm : Quiet m) (h : m d = (.ok a, d')) : ∃ t, d' = d.later t := by
  obtain ⟨t, ht⟩ := hm d
  exact ⟨t, by rw [← ht, h]⟩

/-- What writes nothing leaves its drive to what comes next. -/
theorem Quiet.bind_eq_ok (hm : Quiet m) (h : (m >>= f) d = (.ok b, d')) :
    ∃ a t, m d = (.ok a, d.later t) ∧ f a (d.later t) = (.ok b, d') := by
  obtain ⟨a, d₁, h₁, h⟩ := Fs.bind_eq_ok h
  obtain ⟨t, rfl⟩ := hm.later h₁
  exact ⟨a, t, h₁, h⟩

theorem Quiet.attempt (hm : Quiet m) : Quiet (attempt m) := by
  intro d
  obtain ⟨t, ht⟩ := hm d
  refine ⟨t, ?_⟩
  unfold Fs.attempt
  split <;> rw [← ht] <;> simp_all

theorem Quiet.ite [Decidable p] {n : Fs α} (hm : Quiet m) (hn : Quiet n) :
    Quiet (if p then m else n) := by
  split_ifs
  · exact hm
  · exact hn

theorem quiet_moment : Quiet moment := fun d => ⟨d.moment + 1, rfl⟩

theorem quiet_require (p : Prop) [Decidable p] : Quiet (require p) :=
  (Quiet.of_pure ()).ite Quiet.of_failed

theorem quiet_request : Quiet (request env) := quiet_moment.bind fun _ => quiet_require _

theorem quiet_readLoop (n cur remaining : ℕ) : Quiet (readLoop env n cur remaining) := by
  induction n generalizing cur remaining with
  | zero => exact .of_pure []
  | succ n ih =>
    exact (Quiet.of_pure []).ite (quiet_moment.bind fun _ => (quiet_require _).bind fun _ =>
      Quiet.of_get.bind fun _ => (ih _ _).bind fun _ => Quiet.of_pure _)

theorem quiet_readBlocks (block count : ℕ) : Quiet (readBlocks env block count) :=
  quiet_readLoop count block count

theorem quiet_readBlock (block : ℕ) : Quiet (readBlock env block) :=
  (quiet_readBlocks block 1).bind fun _ => Quiet.of_pure _

theorem quiet_readFolderDescBlock (block : ℕ) : Quiet (readFolderDescBlock env block) :=
  (quiet_readBlock block).bind fun _ => Quiet.of_pure _

theorem quiet_walkFolders (tokens : List (List UInt8)) (block : ℕ) :
    Quiet (walkFolders env tokens block) := by
  induction tokens generalizing block with
  | nil => exact .of_pure block
  | cons token rest ih =>
    refine (quiet_readFolderDescBlock block).bind fun desc => ?_
    split
    · exact .of_failed
    · exact ih _

theorem quiet_getFolderBlock (path : List UInt8) : Quiet (getFolderBlock env path) :=
  Quiet.of_get.bind fun _ => (Quiet.of_pure _).ite (quiet_request.bind fun _ => quiet_walkFolders _ _)

theorem quiet_readFolderDesc (path : List UInt8) : Quiet (readFolderDesc env path) :=
  (quiet_getFolderBlock path).bind fun _ => (quiet_readFolderDescBlock _).bind fun _ =>
    Quiet.of_pure _

theorem quiet_openStreaming (h : FileHandle) : Quiet (openStreaming env h) :=
  quiet_moment.bind fun _ => (quiet_require _).bind fun _ => Quiet.of_pure _

theorem quiet_openLoaded (h : FileHandle) (totalSize : ℕ) : Quiet (openLoaded env h totalSize) := by
  refine (Quiet.of_pure _).ite (quiet_request.attempt.bind fun raw => ?_)
  refine (quiet_openStreaming h).ite (Quiet.of_crashed.ite ((quiet_readBlocks _ _).bind fun _ => ?_))
  exact (quiet_request.bind fun _ => Quiet.of_crashed.ite (Quiet.of_pure _)).ite
    (Quiet.of_crashed.ite (Quiet.of_pure _))

theorem quiet_openData (h : FileHandle) (totalSize : ℕ) : Quiet (openData env h totalSize) := by
  refine .ite ((quiet_openStreaming _).attempt.bind fun r => ?_) (quiet_openLoaded _ _)
  cases r with
  | none => exact quiet_openLoaded _ _
  | some h => exact .of_pure h

theorem quiet_openEntry (path : List UInt8) (readOnly : Bool) (entry : DirEntry) :
    Quiet (openEntry env path readOnly entry) :=
  (quiet_require _).bind fun _ => quiet_request.bind fun _ => (Quiet.of_pure _).ite
    (quiet_moment.bind fun _ => (quiet_readBlock _).bind fun _ => quiet_request.bind fun _ =>
      quiet_openData _ _)

theorem quiet_lookupEntry (parent filename : List UInt8) :
    Quiet (lookupEntry env parent filename) :=
  (quiet_readFolderDesc _).bind fun _ => Quiet.of_pure _

/-- Opening a file for reading writes nothing. -/
theorem quiet_openFile (path : List UInt8) : Quiet (openFile env path true) := by
  refine Quiet.of_get.bind fun _ => (quiet_require _).bind fun _ => quiet_request.bind fun _ =>
    (quiet_lookupEntry _ _).bind fun entry => ?_
  cases entry with
  | some entry => exact quiet_openEntry _ _ _
  | none => exact fun d => ⟨d.moment, rfl⟩

/-! ## Reading -/

theorem Drive.run_append (d : Drive) (start m n : ℕ) :
    d.run start m ++ d.run (start + m) n = d.run start (m + n) := by
  simp [Drive.run, List.range_add, Nat.add_assoc]

/-- Every transfer from the disk succeeds. -/
def Env.Reads (env : Env) : Prop := ∀ t b, env.readOk t b = true

/-- The loop gives the blocks it was asked for, sixteen at a time. -/
theorem looks_readLoop (hread : env.Reads) {n cur remaining : ℕ} (hn : remaining ≤ n)
    (hcur : cur + remaining ≤ 2 ^ 32) :
    Looks (readLoop env n cur remaining) d (d.run cur remaining) := by
  induction n generalizing cur remaining d with
  | zero =>
    obtain rfl : remaining = 0 := by omega
    exact .of_pure []
  | succ n ih =>
    unfold readLoop
    by_cases hzero : remaining = 0
    · rw [hzero]
      exact .of_pure []
    · rw [if_neg hzero]
      refine looks_moment.bind fun t => (looks_require (hread _ _)).bind fun t => ?_
      refine .bind ⟨t, rfl⟩ fun t => ?_
      by_cases hlast : remaining ≤ 16
      · rw [Nat.min_eq_left hlast, Nat.sub_self]
        have hdone : ∀ d : Drive, Looks (readLoop env n (u32 (cur + remaining)) 0) d [] := by
          cases n <;> exact fun d => Looks.of_pure []
        refine (hdone _).bind fun t => ?_
        rw [List.append_nil]
        exact .of_pure _
      · rw [u32_eq_self (by omega)]
        refine (ih (by omega) (by omega)).bind fun t => ?_
        simp only [Drive.later_run]
        rw [Drive.run_append, Nat.add_sub_cancel' (by omega)]
        exact .of_pure _

theorem looks_readBlocks (hread : env.Reads) {block count : ℕ} (h : block + count ≤ 2 ^ 32) :
    Looks (readBlocks env block count) d (d.run block count) :=
  looks_readLoop hread le_rfl h

theorem looks_readBlock (hread : env.Reads) (block : ℕ) :
    Looks (readBlock env block) d (d.disk block) := by
  have hone : Looks (readBlocks env block 1) d (d.run block 1) := by
    unfold readBlocks readLoop
    refine looks_moment.bind fun t => (looks_require (hread _ _)).bind fun t => ?_
    exact .bind ⟨t, rfl⟩ fun t => (Looks.of_pure []).bind fun t =>
      Looks.of_pure _
  exact hone.bind fun _ => Looks.of_pure _

/-- One block, or a failure, takes one moment. -/
theorem readBlock_eq (env : Env) (block : ℕ) (d : Drive) :
    readBlock env block d =
      (if env.readOk d.moment block then .ok (d.disk block) else .error .failed,
        d.later (d.moment + 1)) := by
  unfold readBlock readBlocks readLoop
  rw [if_neg one_ne_zero]
  by_cases hok : env.readOk d.moment block = true
  · rw [if_pos hok]
    exact bind_ok (show _ = (Except.ok (d.run block 1), d.later (d.moment + 1)) by
      rw [bind_ok moment_run, bind_ok (require_true hok)]
      rfl)
  · rw [if_neg hok]
    exact bind_error (by rw [bind_ok moment_run, bind_error (require_false hok)])

/-! ## Operations that at worst fail -/

/-- The operation neither crashes nor loops. -/
def Soft (m : Fs α) : Prop := ∀ d e, (m d).1 = .error e → e = .failed

theorem Soft.of_pure (a : α) : Soft (pure a : Fs α) := fun _ _ h => nomatch h

theorem Soft.of_get : Soft (get : Fs Drive) := fun _ _ h => nomatch h

theorem Soft.of_failed : Soft (failed : Fs α) := fun _ _ h => (Except.error.inj h).symm

theorem Soft.of_modify (f : Drive → Drive) : Soft (modify f : Fs PUnit) := fun _ _ h => nomatch h

theorem Soft.bind (hm : Soft m) (hf : ∀ a, Soft (f a)) : Soft (m >>= f) := by
  intro d e h
  cases hres : (m d).1 with
  | error e' =>
    rw [bind_fst_error hres] at h
    obtain rfl := Except.error.inj h
    exact hm d _ hres
  | ok a =>
    rw [bind_ok (Prod.ext hres rfl : m d = (.ok a, (m d).2))] at h
    exact hf a _ _ h

theorem Soft.ite [Decidable p] {n : Fs α} (hm : Soft m) (hn : Soft n) :
    Soft (if p then m else n) := by
  split_ifs
  · exact hm
  · exact hn

theorem Soft.attempt (hm : Soft m) : Soft (attempt m) := by
  intro d e h
  unfold Fs.attempt at h
  split at h
  · cases h
  · cases h
  · rename_i stop d' _ hres
    exact Except.error.inj h ▸ hm d stop (congrArg Prod.fst hres)

theorem Soft.onFail (hm : Soft m) (hcleanup : Soft cleanup) : Soft (onFail m cleanup) := by
  refine hm.attempt.bind fun r => ?_
  cases r with
  | none => exact hcleanup.bind fun _ => Soft.of_failed
  | some a => exact .of_pure a

/-- An attempt that writes nothing goes on, with a result or without. -/
theorem Soft.looks_attempt (hsoft : Soft m) (hquiet : Quiet m) (d : Drive) :
    ∃ r, Looks (Fs.attempt m) d r := by
  obtain ⟨t, ht⟩ := hquiet d
  cases hres : (m d).1 with
  | ok a => exact ⟨some a, t, attempt_ok (Prod.ext hres ht)⟩
  | error e =>
    obtain rfl := hsoft d e hres
    exact ⟨none, t, attempt_failed (Prod.ext hres ht)⟩

theorem soft_moment : Soft moment := fun _ _ h => nomatch h

theorem soft_now : Soft (now env) := fun _ _ h => nomatch h

theorem soft_require (p : Prop) [Decidable p] : Soft (require p) :=
  (Soft.of_pure ()).ite Soft.of_failed

theorem soft_request : Soft (request env) := soft_moment.bind fun _ => soft_require _

theorem soft_readBlock (env : Env) (block : ℕ) : Soft (readBlock env block) := by
  intro d e h
  rw [readBlock_eq] at h
  split_ifs at h
  cases h
  rfl

theorem soft_writeLoop (env : Env) (n cur : ℕ) (blocks : List Block) :
    Soft (writeLoop env n cur blocks) := by
  induction n generalizing cur blocks with
  | zero => exact .of_pure ()
  | succ n ih =>
    exact (Soft.of_pure ()).ite (soft_moment.bind fun _ => (soft_require _).bind fun _ =>
      (Soft.of_modify _).bind fun _ => ih _ _)

theorem soft_writeBlocks (env : Env) (block : ℕ) (blocks : List Block) :
    Soft (writeBlocks env block blocks) := soft_writeLoop env _ block blocks

theorem soft_allocRun (env : Env) (count : ℕ) : Soft (allocRun env count) := by
  refine soft_moment.bind fun t => Soft.of_get.bind fun d => ?_
  rcases blockAllocRun (env.heap t) d.alloc count with ⟨_ | start, a⟩
  · exact .of_failed
  · exact fun _ _ h => nomatch h

theorem soft_freeRun (env : Env) (block count : ℕ) : Soft (freeRun env block count) :=
  fun _ _ h => nomatch h

theorem soft_walkFolders (env : Env) (tokens : List (List UInt8)) (block : ℕ) :
    Soft (walkFolders env tokens block) := by
  induction tokens generalizing block with
  | nil => exact .of_pure block
  | cons token rest ih =>
    refine ((soft_readBlock env block).bind fun _ => Soft.of_pure _).bind fun desc => ?_
    split
    · exact .of_failed
    · exact ih _

theorem soft_readFolderDesc (env : Env) (path : List UInt8) : Soft (readFolderDesc env path) := by
  have hblock : Soft (getFolderBlock env path) := Soft.of_get.bind fun _ =>
    (Soft.of_pure _).ite (soft_request.bind fun _ => soft_walkFolders env _ _)
  exact hblock.bind fun _ => ((soft_readBlock env _).bind fun _ => Soft.of_pure _).bind fun _ =>
    Soft.of_pure _

theorem soft_writeFolderDesc (env : Env) (desc : FolderDesc) : Soft (writeFolderDesc env desc) := by
  refine (soft_require _).bind fun _ => ?_
  split
  · exact .of_failed
  · exact soft_writeBlocks env _ _

theorem soft_refreshStorageDesc (env : Env) : Soft (refreshStorageDesc env) := by
  have hwrite : Soft (writeStorageDesc env) := Soft.of_get.bind fun _ => (soft_require _).bind fun _ =>
    soft_writeBlocks env _ _
  exact soft_now.bind fun _ => (Soft.of_modify _).bind fun _ => Soft.of_get.bind fun _ =>
    (hwrite.attempt.bind fun _ => Soft.of_pure _).ite (Soft.of_pure _)

end MinimalOS.Minimafs
