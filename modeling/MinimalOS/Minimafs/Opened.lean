import MinimalOS.Minimafs.Stream

/-!
# What opening a file returns

The handle that `minimafs_open` returns for an entry of a directory, on a machine whose reads
succeed: it serves the bytes that its header gives the file.
-/

namespace MinimalOS.Minimafs

open Fs

variable {d d' : Drive} {env : Env} {h h' : FileHandle} {path : List UInt8} {readOnly : Bool}
  {entry : DirEntry}

/-- The handles `minimafs_open` may return for an entry: one without data, one that streams and one
that has loaded the data. -/
inductive Opened (d : Drive) (path : List UInt8) (readOnly : Bool) (entry : DirEntry) (x : Extract) :
    FileHandle → Prop
  | empty (hx : x.dataLength = 0) :
      Opened d path readOnly entry x (FileHandle.opened path readOnly entry x)
  | streams (cache : Block) :
      Opened d path readOnly entry x (streamHandle path readOnly entry x cache)
  | loads (data : List UInt8)
      (hdata : entry.blockOffset + entry.blockCount ≤ 2 ^ 32 →
        data = (FileHandle.opened path readOnly entry x).contents d) :
      Opened d path readOnly entry x ((FileHandle.opened path readOnly entry x).loaded data)

variable {x : Extract}

theorem Opened.of_later {t : ℕ} (ho : Opened (d.later t) path readOnly entry x h) :
    Opened d path readOnly entry x h := by
  cases ho with
  | empty hx => exact .empty hx
  | streams cache => exact .streams cache
  | loads data hdata => exact .loads data hdata

theorem Opened.later (ho : Opened d path readOnly entry x h) (t : ℕ) :
    Opened (d.later t) path readOnly entry x h := by
  cases ho with
  | empty hx => exact .empty hx
  | streams cache => exact .streams cache
  | loads data hdata => exact .loads data hdata

theorem openStreaming_eq (ho : openStreaming env h d = (.ok h', d')) :
    ∃ cache, h' = h.streaming cache := by
  obtain ⟨t, d₁, -, ho⟩ := bind_eq_ok ho
  obtain ⟨-, d₂, -, ho⟩ := bind_eq_ok ho
  cases ho
  exact ⟨_, rfl⟩

section Entry

variable (hread : env.Reads)

include hread

theorem openLoaded_opened {totalSize : ℕ}
    (ho : openLoaded env (FileHandle.opened path readOnly entry x) totalSize d = (.ok h', d')) :
    Opened d path readOnly entry x h' := by
  unfold openLoaded at ho
  by_cases hzero : x.dataLength = 0
  · rw [if_pos (show (FileHandle.opened path readOnly entry x).dataSize = 0 from hzero)] at ho
    cases ho
    exact .empty hzero
  · rw [if_neg (show ¬ (FileHandle.opened path readOnly entry x).dataSize = 0 from hzero)] at ho
    obtain ⟨raw, d₁, hraw, ho⟩ := bind_eq_ok ho
    obtain ⟨t, rfl⟩ := quiet_request.attempt.later hraw
    by_cases hstream : raw.isNone ∧ blockSize < totalSize
    · rw [if_pos hstream] at ho
      obtain ⟨cache, rfl⟩ := openStreaming_eq ho
      exact .streams cache
    · rw [if_neg hstream] at ho
      by_cases hwrap : totalSize ≠ (FileHandle.opened path readOnly entry x).fileBlockCount * blockSize
      · rw [if_pos hwrap] at ho
        cases ho
      · rw [if_neg hwrap] at ho
        obtain ⟨blocks, d₂, hrun, ho⟩ := bind_eq_ok ho
        have hdata : entry.blockOffset + entry.blockCount ≤ 2 ^ 32 →
            ((blocks.flatMap Block.bytes).drop x.dataOffset).take x.dataLength =
              (FileHandle.opened path readOnly entry x).contents d := by
          intro hblocks
          rw [((looks_readBlocks hread hblocks).eq hrun).1, Drive.flatMap_run]
          rfl
        have hdone : ∀ d₃, (if totalSize < x.dataOffset + x.dataLength then crashed
            else pure ((FileHandle.opened path readOnly entry x).loaded
              (((blocks.flatMap Block.bytes).drop x.dataOffset).take x.dataLength)) :
                Fs FileHandle) d₃ = (.ok h', d') → Opened d path readOnly entry x h' := by
          intro d₃ ho
          split_ifs at ho
          · cases ho
          · cases ho
            exact .loads _ hdata
        by_cases hinline : inlineSize < (FileHandle.opened path readOnly entry x).dataSize
        · dsimp only at ho
          rw [if_pos hinline] at ho
          obtain ⟨-, d₃, -, ho⟩ := bind_eq_ok ho
          exact hdone d₃ ho
        · rw [if_neg hinline] at ho
          exact hdone _ ho

theorem openData_opened {totalSize : ℕ}
    (ho : openData env (FileHandle.opened path readOnly entry x) totalSize d = (.ok h', d')) :
    Opened d path readOnly entry x h' := by
  unfold openData at ho
  by_cases hlong : streamingThreshold < (FileHandle.opened path readOnly entry x).dataSize
  · rw [if_pos hlong] at ho
    obtain ⟨r, t₁, h₁, ho⟩ := (quiet_openStreaming _).attempt.bind_eq_ok ho
    cases r with
    | none => exact (openLoaded_opened hread ho).of_later
    | some h =>
      cases ho
      obtain ⟨cache, rfl⟩ := openStreaming_eq (attempt_eq_some h₁)
      exact .streams cache
  · rw [if_neg hlong] at ho
    exact openLoaded_opened hread ho

theorem openEntry_opened (ho : openEntry env path readOnly entry d = (.ok h', d')) :
    ∃ x, Opened d path readOnly entry x h' ∧ (u32 (entry.blockCount * blockSize) ≠ 0 →
      ∃ t, x = extract ((d.disk entry.blockOffset).bytes ++ env.beyond t) entry
        (u32 (entry.blockCount * blockSize))) := by
  obtain ⟨_, t₁, -, ho⟩ := (quiet_require _).bind_eq_ok ho
  obtain ⟨_, t₂, -, ho⟩ := quiet_request.bind_eq_ok ho
  by_cases hzero : u32 (entry.blockCount * blockSize) = 0
  · rw [if_pos hzero] at ho
    cases ho
    exact ⟨⟨{}, 0, 0⟩, Opened.empty rfl, fun hne => absurd hzero hne⟩
  · rw [if_neg hzero] at ho
    obtain ⟨s, t₃, -, ho⟩ := quiet_moment.bind_eq_ok ho
    obtain ⟨t₄, hfirst⟩ := looks_readBlock (d := ((d.later t₁).later t₂).later t₃) hread
      entry.blockOffset
    rw [bind_ok hfirst] at ho
    obtain ⟨_, t₅, -, ho⟩ := quiet_request.bind_eq_ok ho
    simp only [Drive.later_later] at ho
    exact ⟨_, (openData_opened hread ho).of_later, fun _ => ⟨_, rfl⟩⟩

theorem openFile_opened (ho : openFile env path true d = (.ok h', d')) :
    (∃ entry x, Opened d path true entry x h') ∧ ∃ t, d' = d.later t := by
  refine ⟨?_, (quiet_openFile path).later ho⟩
  obtain ⟨_, t₂, -, ho⟩ := (quiet_require _).bind_eq_ok ho
  obtain ⟨_, t₃, -, ho⟩ := quiet_request.bind_eq_ok ho
  obtain ⟨entry, t₄, -, ho⟩ := (quiet_lookupEntry _ _).bind_eq_ok ho
  cases entry with
  | some entry =>
    simp only [Drive.later_later] at ho
    obtain ⟨x, hx, -⟩ := openEntry_opened hread ho
    exact ⟨entry, x, hx.of_later⟩
  | none =>
    obtain ⟨_, d₅, h₅, ho⟩ := bind_eq_ok ho
    cases h₅

end Entry

theorem openFile_mounted (ho : (openFile env path readOnly d).1 = .ok h) : d.mounted = true := by
  obtain ⟨_, d₁, h₁, ho⟩ := bind_eq_ok (Prod.ext ho rfl : openFile env path readOnly d = (.ok h, _))
  cases h₁
  obtain ⟨_, d₂, h₂, -⟩ := bind_eq_ok ho
  by_contra hnot
  unfold require at h₂
  rw [if_neg hnot] at h₂
  cases h₂

/-! ## What a handle serves -/

/-- The handle reads the contents `c`, from memory or by blocks. -/
def Serves (d : Drive) (c : List UInt8) (h : FileHandle) : Prop := Holds c h ∨ StreamsTo d c h

variable {c : List UInt8}

theorem Serves.length (hs : Serves d c h) : h.dataSize = c.length :=
  hs.elim (fun h => h.size) fun h => h.length.symm

theorem Serves.later (hs : Serves d c h) (t : ℕ) : Serves (d.later t) c h := by
  refine hs.imp_right fun hs => ?_
  obtain ⟨cache, hcache, hstreams⟩ := hs.cached
  exact ⟨hs.streaming, hs.contents, ⟨cache, hcache, hstreams.laid, hstreams.small, hstreams.cached⟩,
    hs.position⟩

theorem Serves.seek (hs : Serves d c h) (offset : ℕ) :
    Serves d c (h.seek offset) ∧ (h.seek offset).position = min offset c.length :=
  hs.elim (fun h => ⟨.inl (h.seek offset).1, (h.seek offset).2⟩)
    fun h => ⟨.inr (h.seek offset).1, (h.seek offset).2⟩

theorem Serves.read (hread : env.Reads) (hmounted : d.mounted = true) (hs : Serves d c h)
    (size t : ℕ) :
    ∃ h', Looks (readFile env h size) (d.later t) ((c.drop h.position).take size, h') ∧
      h'.position = min (h.position + size) c.length ∧ Serves d c h' := by
  rcases hs with hh | hh
  · obtain ⟨h', hlooks, hpos, hh'⟩ := hh.read env (d.later t) size
    exact ⟨h', hlooks, hpos, .inl hh'⟩
  · obtain ⟨h', hlooks, hpos, hh'⟩ := hh.read hread hmounted size t
    exact ⟨h', hlooks, hpos, .inr hh'⟩

/-- A handle on a file that lies in the volume and ends within 4 GiB of its start. -/
structure FileHandle.Sound (h : FileHandle) : Prop extends h.Laid where
  small : h.dataOffsetInBlocks + h.dataSize ≤ 2 ^ 32
  size : h.dataSize < 2 ^ 32

theorem Opened.serves (ho : Opened d path readOnly entry x h) (hsound : h.Sound) :
    h.dataSize = 0 ∨ Serves d (h.contents d) h := by
  cases ho with
  | empty hx => exact .inl hx
  | streams cache =>
    exact .inr (.inr ⟨rfl, rfl, ⟨cache, rfl, ⟨hsound.blocks, hsound.inside⟩, hsound.small,
      .inl rfl⟩, Nat.zero_le _⟩)
  | loads data hdata =>
    have heq := hdata hsound.blocks
    refine .inr (.inl ⟨rfl, congrArg some heq, ?_, Nat.zero_le _⟩)
    exact (hsound.length_contents d).symm

theorem Opened.readOnly_eq (ho : Opened d path readOnly entry x h) : h.readOnly = readOnly := by
  cases ho <;> rfl

end MinimalOS.Minimafs
