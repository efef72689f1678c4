import MinimalOS.Elf.Loader
import Mathlib.Tactic

/-!
# What the ELF loader reads and writes

The copies into the image stay inside it: a segment's bytes in memory are checked without wrapping,
and there are at least as many of them as in the file. The other three checks are missing or wrap.
Sums of an offset and a size in the file may wrap to a small number, for the program headers and
for a segment, and the target of a relocation is not checked at all. `loads_inside_iff` says that
these are the only ways out of the file and out of the image.
-/

namespace MinimalOS.Elf

open ByteMem List Option

/-- The bytes `[a, a + len)` lie in `[start, start + size)`. -/
def Within (start size a len : ℕ) : Prop := start ≤ a ∧ a + len ≤ start + size

instance (start size a len : ℕ) : Decidable (Within start size a len) :=
  inferInstanceAs (Decidable (_ ∧ _))

def Access.Inside (k : Env) (image : Image) : Access → Prop
  | .file a len => Within k.filebuf k.fileSize a len
  | .write a len => Within image.base image.size a len

instance (k : Env) (image : Image) : (x : Access) → Decidable (x.Inside k image)
  | .file _ _ => inferInstanceAs (Decidable (Within _ _ _ _))
  | .write _ _ => inferInstanceAs (Decidable (Within _ _ _ _))

/-- Every read of the file is a read of the file, every write one into the allocated image. -/
def Loaded.Inside (k : Env) (out : Loaded) : Prop :=
  ∀ x ∈ out.machine.trace, x.Inside k out.image

instance (k : Env) (out : Loaded) : Decidable (out.Inside k) :=
  inferInstanceAs (Decidable (∀ x ∈ out.machine.trace, x.Inside k out.image))

variable {a : ℕ}

theorem add64_of_lt {b : ℕ} (h : a + b < 2 ^ 64) : add64 a b = a + b := Nat.mod_eq_of_lt h

theorem within_add64 {start size off len : ℕ} (hoff : off < 2 ^ 64) (hlen : 0 < len)
    (hend : start + size ≤ 2 ^ 64) :
    Within start size (add64 start off) len ↔ off + len ≤ size := by
  unfold Within add64
  omega

theorem readLE_lt64 (m : Mem) (a : ℕ) : readLE m 8 a < 2 ^ 64 := readLE_lt m 8 a

/-! ## What the checks establish -/

section Plan

variable {k : Env} {p : Plan}

theorem allocImage_spec {e : ℕ} {image : Image} (h : allocImage k e = some image) :
    Apart k.filebuf k.fileSize image.base image.size ∧ e ≤ image.size := by
  unfold allocImage at h
  split at h
  · next base hb =>
    obtain rfl : _ = image := Option.some.inj h
    exact ⟨k.alloc_apart _ _ hb, le_rfl⟩
  · obtain ⟨base, hb, rfl⟩ := map_eq_some_iff.mp h
    refine ⟨k.pages_apart _ _ hb, ?_⟩
    show e ≤ (e + 0xFFF) / 0x1000 * 0x1000
    omega

theorem plan_spec (h : plan k = some p) :
    64 ≤ k.fileSize ∧ k.fileSize ≤ elfMaxFileSize ∧ headerAccepted k = true ∧
      (∃ sp, span k k.ehdr.ePhnum = some sp ∧ sp.imageEnd = p.imageEnd) ∧
      p.imageEnd ≤ elfMaxImageSize ∧ allocImage k p.imageEnd = some p.image := by
  unfold plan at h
  rw [ite_none_left_eq_some, ite_none_left_eq_some,
    ite_none_left_eq_some] at h
  obtain ⟨_, hsize, hhead, h⟩ := h
  obtain ⟨sp, hsp, h⟩ := bind_eq_some_iff.mp h
  rw [ite_none_left_eq_some, ite_none_left_eq_some] at h
  obtain ⟨hend, _, h⟩ := h
  obtain ⟨image, himage, rfl⟩ := map_eq_some_iff.mp h
  exact ⟨by omega, by omega, not_not.mp hhead, ⟨sp, hsp, rfl⟩, by show sp.imageEnd ≤ _; omega,
    himage⟩

theorem header_phnum (h : headerAccepted k = true) :
    0 < k.ehdr.ePhnum ∧ k.ehdr.ePhnum ≤ 64 ∧
      add64 k.ehdr.ePhoff (k.ehdr.ePhnum * 56) ≤ k.fileSize := by
  obtain ⟨_, _, _, _, _, h0, h1, h2⟩ := of_decide_eq_true h
  exact ⟨Nat.pos_of_ne_zero h0, h1, h2⟩

/-- A loaded segment with its place in the image. -/
def Phdr.Fits (ph : Phdr) (imageEnd : ℕ) : Prop :=
  ph.pType = ptLoad → ph.pFilesz ≤ ph.pMemsz ∧ ph.pVaddr + ph.pMemsz ≤ imageEnd

theorem spanStep_spec {m : Mem} {fileSize a : ℕ} {sp sp' : Span}
    (h : spanStep m fileSize sp a = some sp') :
    (phdrAt m a).Fits sp'.imageEnd ∧ sp.imageEnd ≤ sp'.imageEnd := by
  have hm : (phdrAt m a).pMemsz < 2 ^ 64 := readLE_lt64 _ _
  unfold spanStep at h
  dsimp only at h
  split at h
  · next hd =>
    cases h
    refine ⟨fun hl => absurd (hl.symm.trans hd) (by decide), le_rfl⟩
  · split at h
    · next hl =>
      cases h
      exact ⟨fun h => absurd h hl, le_rfl⟩
    · rw [ite_none_left_eq_some, ite_none_left_eq_some,
        ite_none_left_eq_some] at h
      obtain ⟨hsz, _, hwrap, h⟩ := h
      cases h
      refine ⟨fun _ => ⟨by omega, ?_⟩, le_max_left _ _⟩
      -- the sum did not wrap, or it would be below `pVaddr`
      refine le_trans (le_of_eq ?_) (le_max_right _ _)
      unfold add64 at hwrap ⊢
      omega

theorem span_spec : ∀ {n : ℕ} {sp : Span}, span k n = some sp →
    ∀ i < n, (phdrAt k.mem (k.phdrs i)).Fits sp.imageEnd := by
  intro n
  induction n with
  | zero => intro sp _ i hi; omega
  | succ n ih =>
    intro sp' h i hi hl
    obtain ⟨sp, hsp, h⟩ := bind_eq_some_iff.mp h
    obtain ⟨hfit, hle⟩ := spanStep_spec h
    rcases Nat.lt_succ_iff_lt_or_eq.mp hi with hi | rfl
    · obtain ⟨h1, h2⟩ := ih hsp i hi hl
      exact ⟨h1, h2.trans hle⟩
    · exact hfit hl

end Plan

/-! ## Segments -/

def HeadersFit (k : Env) : Prop := k.ehdr.ePhoff + k.ehdr.ePhnum * 56 ≤ k.fileSize

/-- Header `i` of the file. -/
def Env.phdr (k : Env) (i : ℕ) : Phdr := phdrAt k.mem (k.phdrs i)

/-- What the second loop does for header `i`. -/
def segmentLog (k : Env) (base i : ℕ) : List Access :=
  .file (k.phdrs i) 56 ::
    if (k.phdr i).Copies then
      [.file (add64 k.filebuf (k.phdr i).pOffset) (k.phdr i).pFilesz,
        .write (add64 base (k.phdr i).pVaddr) (k.phdr i).pFilesz]
    else []

theorem phdrAt_congr {m m' : Mem} (h : ∀ i, a ≤ i → i < a + 56 → m' i = m i) :
    phdrAt m' a = phdrAt m a := by
  have hr : ∀ w o, o + w ≤ 56 → readLE m' w (a + o) = readLE m w (a + o) := fun w o ho =>
    readLE_congr w (a + o) fun i hi hi' => h i (by omega) (by omega)
  unfold phdrAt
  rw [hr 8 8 (by omega), hr 8 16 (by omega), hr 8 32 (by omega), hr 8 40 (by omega)]
  rw [show readLE m' 4 a = readLE m 4 a from hr 4 0 (by omega)]

theorem copySegment_of_phdrAt (filebuf base : ℕ) {s : Machine} {ph : Phdr}
    (h : phdrAt s.mem a = ph) :
    (copySegment filebuf base s a).trace =
        s.trace ++ (.file a 56 :: if ph.Copies then
          [.file (add64 filebuf ph.pOffset) ph.pFilesz, .write (add64 base ph.pVaddr) ph.pFilesz]
        else []) ∧
      (ph.Copies → Changed (add64 base ph.pVaddr) ph.pFilesz s.mem
        (copySegment filebuf base s a).mem) ∧
      (¬ ph.Copies → (copySegment filebuf base s a).mem = s.mem) := by
  unfold copySegment
  rw [h]
  by_cases hc : ph.Copies
  · simp only [if_pos hc]
    refine ⟨?_, fun _ => changed_copy s.mem _ _ _, fun h => absurd hc h⟩
    simp [Machine.memcpy, Machine.readFile]
  · simp only [if_neg hc]
    exact ⟨rfl, fun h => absurd h hc, fun _ => rfl⟩

section Load

variable {k : Env} {p : Plan}

variable {i : ℕ}

theorem phdrs_eq (hfit : HeadersFit k) (hi : i < k.ehdr.ePhnum) :
    k.phdrs i = k.filebuf + (k.ehdr.ePhoff + i * 56) ∧
      Within k.filebuf k.fileSize (k.phdrs i) 56 := by
  have hend := k.filebuf_end
  unfold HeadersFit at hfit
  have h : k.phdrs i = k.filebuf + (k.ehdr.ePhoff + i * 56) := by
    unfold Env.phdrs add64
    omega
  refine ⟨h, ?_⟩
  unfold Within
  omega

variable (hp : plan k = some p)

include hp in
theorem segment_within (hi : i < k.ehdr.ePhnum) (hc : (k.phdr i).Copies) :
    Within p.image.base p.image.size (add64 p.image.base (k.phdr i).pVaddr) (k.phdr i).pFilesz := by
  obtain ⟨_, _, _, ⟨sp, hsp, hend⟩, _, himage⟩ := plan_spec hp
  obtain ⟨⟨htop, _⟩, hle⟩ := allocImage_spec himage
  obtain ⟨hsz, hfits⟩ := span_spec hsp i hi hc.1
  have hv : (k.phdr i).pVaddr < 2 ^ 64 := readLE_lt64 _ _
  rw [within_add64 hv (Nat.pos_of_ne_zero hc.2) htop]
  change (k.phdr i).pFilesz ≤ (k.phdr i).pMemsz at hsz
  change (k.phdr i).pVaddr + (k.phdr i).pMemsz ≤ sp.imageEnd at hfits
  omega

include hp in
/-- **The second loop.** The copies leave the file as it is, so that the headers that are read are
those that were checked. -/
theorem copySegments_spec (hfit : HeadersFit k) {n : ℕ} (hn : n ≤ k.ehdr.ePhnum) :
    (∀ a, k.filebuf ≤ a → a < k.filebuf + k.fileSize →
        (copySegments k p.image.base (allocated k p) n).mem a = k.mem a) ∧
      (copySegments k p.image.base (allocated k p) n).trace =
        (allocated k p).trace ++ (List.range n).flatMap (segmentLog k p.image.base) := by
  obtain ⟨_, hsize, _, _, _, himage⟩ := plan_spec hp
  obtain ⟨⟨htop, hapart⟩, _⟩ := allocImage_spec himage
  induction n with
  | zero =>
    refine ⟨fun a ha ha' => ?_, by simp [copySegments]⟩
    exact changed_fill _ _ _ _ a (by omega)
  | succ n ih =>
    obtain ⟨hmem, htrace⟩ := ih (by omega)
    obtain ⟨_, hin⟩ := phdrs_eq hfit (i := n) (by omega)
    have hph : phdrAt (copySegments k p.image.base (allocated k p) n).mem (k.phdrs n) =
        k.phdr n :=
      phdrAt_congr fun i hi hi' => hmem i (by unfold Within at hin; omega)
        (by unfold Within at hin; omega)
    obtain ⟨ht, hchanged, hsame⟩ :=
      copySegment_of_phdrAt k.filebuf p.image.base hph
    constructor
    · intro a ha ha'
      rw [copySegments, ← hmem a ha ha']
      by_cases hc : (k.phdr n).Copies
      · have hw := segment_within hp (by omega) hc
        unfold Within at hw
        exact hchanged hc a (by omega)
      · rw [hsame hc]
    · rw [copySegments, ht, htrace, range_succ, flatMap_append, flatMap_singleton,
        append_assoc]
      rfl

/-! ## Relocations -/

/-- Entry `i` of the relocation table, as it stands when the loop comes to it. -/
def relaMet (k : Env) (loadAddress : ℕ) (p : Plan) (i : ℕ) : Rela :=
  relaAt (relocated k loadAddress p i).mem (relaAddr k p i)

theorem relocated_trace (k : Env) (loadAddress : ℕ) (p : Plan) (n : ℕ) :
    (relocated k loadAddress p n).trace = (placed k p).trace ++
      (List.range n).flatMap fun i => if (relaMet k loadAddress p i).Relative then
        [.write (add64 p.image.base (relaMet k loadAddress p i).rOffset) 8] else [] := by
  induction n with
  | zero => simp [relocated]
  | succ n ih =>
    rw [range_succ, flatMap_append, flatMap_singleton, ← append_assoc, ← ih]
    rw [relocated, relocate, ← relaMet]
    by_cases hr : (relaMet k loadAddress p n).Relative
    · rw [if_pos hr, if_pos hr]
      rfl
    · rw [if_neg hr, if_neg hr, append_nil]

theorem allocated_trace_subset (k : Env) (p : Plan) (n : ℕ) :
    (allocated k p).trace ⊆ (copySegments k p.image.base (allocated k p) n).trace := by
  induction n with
  | zero => exact fun _ h => h
  | succ n ih =>
    intro x hx
    rw [copySegments, (copySegment_of_phdrAt _ _ rfl).1]
    exact mem_append_left _ (ih hx)

/-! ## The loader -/

/-- What the loader does not check: that sums of offsets and sizes in the file do not wrap, and
that a relocation lies in the image. -/
structure InRange (k : Env) (loadAddress : ℕ) (p : Plan) : Prop where
  headers : HeadersFit k
  segments : ∀ i < k.ehdr.ePhnum, (k.phdr i).Copies →
    (k.phdr i).pOffset + (k.phdr i).pFilesz ≤ k.fileSize
  relocations : ∀ i < (relaTable k p).2, (relaMet k loadAddress p i).Relative →
    (relaMet k loadAddress p i).rOffset + 8 ≤ p.image.size

include hp in
theorem headersFit_of_inside
    (h : ∀ x ∈ (allocated k p).trace, x.Inside k p.image) : HeadersFit k := by
  obtain ⟨_, hsize, hhead, _⟩ := plan_spec hp
  obtain ⟨hpos, hle, hsum⟩ := header_phnum hhead
  have hoff : k.ehdr.ePhoff < 2 ^ 64 := readLE_lt64 _ _
  have hend := k.filebuf_end
  have hfirst : Within k.filebuf k.fileSize (k.phdrs 0) 56 := by
    refine h (.file (k.phdrs 0) 56) (mem_append_left _ (mem_cons_of_mem _ ?_))
    exact mem_map.mpr ⟨0, mem_range.mpr hpos, rfl⟩
  have h0 : k.phdrs 0 = add64 k.filebuf k.ehdr.ePhoff := by
    unfold Env.phdrs add64
    omega
  rw [h0, within_add64 hoff (by omega) hend] at hfirst
  unfold elfMaxFileSize at hsize
  rwa [add64_of_lt (by omega)] at hsum

include hp in
theorem allocated_inside (hfit : HeadersFit k) :
    ∀ x ∈ (allocated k p).trace, x.Inside k p.image := by
  obtain ⟨hmin, hsize, _⟩ := plan_spec hp
  intro x hx
  rcases mem_append.mp hx with hx | hx
  · rcases mem_cons.mp hx with rfl | hx
    · exact ⟨le_rfl, by omega⟩
    · obtain ⟨i, hi, rfl⟩ := mem_map.mp hx
      exact (phdrs_eq hfit (mem_range.mp hi)).2
  · obtain rfl := mem_singleton.mp hx
    exact ⟨le_rfl, le_rfl⟩

include hp in
theorem segmentLog_inside_iff (hfit : HeadersFit k) (hi : i < k.ehdr.ePhnum) :
    (∀ x ∈ segmentLog k p.image.base i, x.Inside k p.image) ↔
      ((k.phdr i).Copies → (k.phdr i).pOffset + (k.phdr i).pFilesz ≤ k.fileSize) := by
  obtain ⟨_, hsize, _⟩ := plan_spec hp
  have hhead : (Access.file (k.phdrs i) 56).Inside k p.image := (phdrs_eq hfit hi).2
  unfold segmentLog
  by_cases hc : (k.phdr i).Copies
  · have hread : Within k.filebuf k.fileSize (add64 k.filebuf (k.phdr i).pOffset)
        (k.phdr i).pFilesz ↔ (k.phdr i).pOffset + (k.phdr i).pFilesz ≤ k.fileSize :=
      within_add64 (readLE_lt64 _ _) (Nat.pos_of_ne_zero hc.2) k.filebuf_end
    have hwrite := segment_within hp hi hc
    rw [if_pos hc, ← hread]
    constructor
    · exact fun h _ => h (.file _ _) (mem_cons_of_mem _ (mem_cons_self))
    · intro h x hx
      simp only [mem_cons, not_mem_nil, or_false] at hx
      rcases hx with rfl | rfl | rfl
      · exact hhead
      · exact h hc
      · exact hwrite
  · rw [if_neg hc]
    refine ⟨fun _ h => absurd h hc, fun _ x hx => ?_⟩
    obtain rfl := mem_singleton.mp hx
    exact hhead

include hp in
theorem placed_inside_iff :
    (∀ x ∈ (placed k p).trace, x.Inside k p.image) ↔
      HeadersFit k ∧ ∀ i < k.ehdr.ePhnum, (k.phdr i).Copies →
        (k.phdr i).pOffset + (k.phdr i).pFilesz ≤ k.fileSize := by
  have hspec := fun hfit => (copySegments_spec hp hfit (n := k.ehdr.ePhnum) le_rfl).2
  constructor
  · intro h
    have hfit := headersFit_of_inside hp fun x hx => h x (allocated_trace_subset k p _ hx)
    refine ⟨hfit, fun i hi => (segmentLog_inside_iff hp hfit hi).mp fun x hx => h x ?_⟩
    rw [placed, hspec hfit]
    exact mem_append_right _ (mem_flatMap.mpr ⟨i, mem_range.mpr hi, hx⟩)
  · rintro ⟨hfit, hseg⟩ x hx
    rw [placed, hspec hfit] at hx
    rcases mem_append.mp hx with hx | hx
    · exact allocated_inside hp hfit x hx
    · obtain ⟨i, hi, hx⟩ := mem_flatMap.mp hx
      rw [mem_range] at hi
      exact (segmentLog_inside_iff hp hfit hi).mpr (hseg i hi) x hx

include hp in
theorem relocated_inside_iff (loadAddress n : ℕ) :
    (∀ x ∈ (relocated k loadAddress p n).trace, x.Inside k p.image) ↔
      (∀ x ∈ (placed k p).trace, x.Inside k p.image) ∧
        ∀ i < n, (relaMet k loadAddress p i).Relative →
          (relaMet k loadAddress p i).rOffset + 8 ≤ p.image.size := by
  obtain ⟨_, _, _, _, _, himage⟩ := plan_spec hp
  obtain ⟨⟨htop, _⟩, _⟩ := allocImage_spec himage
  have hwrite : ∀ i, (Access.write (add64 p.image.base (relaMet k loadAddress p i).rOffset)
      8).Inside k p.image ↔ (relaMet k loadAddress p i).rOffset + 8 ≤ p.image.size :=
    fun i => within_add64 (readLE_lt64 _ _) (by omega) htop
  rw [relocated_trace, forall_mem_append]
  refine and_congr_right fun _ => ?_
  simp only [mem_flatMap, mem_range]
  constructor
  · intro h i hi hr
    exact (hwrite i).mp (h _ ⟨i, hi, by rw [if_pos hr]; exact mem_singleton_self _⟩)
  · rintro h x ⟨i, hi, hx⟩
    split at hx
    · next hr =>
      obtain rfl := mem_singleton.mp hx
      exact (hwrite i).mpr (h i hi hr)
    · exact absurd hx not_mem_nil

end Load

/-- **Memory safety of the loader.** A file that is accepted is read inside its bounds and written
inside the allocated image exactly if the program headers and the segments lie in the file without
wrapping and every relocation that is met lies in the image. -/
theorem loads_inside_iff (k : Env) (loadAddress : ℕ) :
    (∀ out, elfLoadBufferAt k loadAddress = some out → out.Inside k) ↔
      ∀ p, plan k = some p → InRange k loadAddress p := by
  have hone : ∀ p, plan k = some p →
      ((∀ x ∈ (relocated k loadAddress p (relaTable k p).2).trace, x.Inside k p.image) ↔
        InRange k loadAddress p) := by
    intro p hp
    rw [relocated_inside_iff hp, placed_inside_iff hp]
    exact ⟨fun ⟨⟨h, s⟩, r⟩ => ⟨h, s, r⟩, fun ⟨h, s, r⟩ => ⟨⟨h, s⟩, r⟩⟩
  unfold elfLoadBufferAt
  constructor
  · intro h p hp
    have hin := h _ (by rw [hp]; rfl)
    exact (hone p hp).mp hin
  · intro h out hout
    obtain ⟨p, hp, rfl⟩ := map_eq_some_iff.mp hout
    exact (hone p hp).mpr (h p hp)

/-! ## A relocation outside the image -/

def sampleHeader (type offset vaddr filesz memsz : ℕ) : List UInt8 :=
  (List.range 56).map fun i => UInt8.ofNat <|
    (type + offset * 256 ^ 8 + vaddr * 256 ^ 16 + filesz * 256 ^ 32 + memsz * 256 ^ 40) / 256 ^ i

/-- A file of 264 bytes that is one segment: it is loaded at offset 0, its dynamic table stands at
176 and names a relocation table at 240 with one entry. -/
def sampleFile (rOffset : ℕ) : List UInt8 :=
  (List.range 64).map (fun i => UInt8.ofNat <|
    (0x00010102464c457f + 3 * 256 ^ 16 + 62 * 256 ^ 18 + 64 * 256 ^ 32 + 2 * 256 ^ 56) / 256 ^ i) ++
  sampleHeader ptLoad 0 0 264 264 ++ sampleHeader ptDynamic 0 176 0 64 ++
  (List.range 64).map (fun i => UInt8.ofNat <|
    (dtRela + 240 * 256 ^ 8 + dtRelasz * 256 ^ 16 + 24 * 256 ^ 24 + dtRelaent * 256 ^ 32 +
      24 * 256 ^ 40) / 256 ^ i) ++
  (List.range 24).map fun i => UInt8.ofNat ((rOffset + 8 * 256 ^ 8) / 256 ^ i)

/-- The file at 1 MiB and a heap at 2 MiB. -/
def sampleEnv (rOffset : ℕ) : Env where
  mem a := (sampleFile rOffset).getD (a - 0x100000) 0
  filebuf := 0x100000
  fileSize := 264
  alloc n := if n ≤ 0x100000 then some 0x200000 else none
  allocPagesZeroed _ := none
  filebuf_end := by decide
  alloc_apart n p h := by
    split at h
    · cases h
      exact ⟨by omega, by omega⟩
    · cases h
  pages_apart _ _ h := by cases h

/-- The loader accepts a file whose only relocation is 2 GiB behind the image, and writes there. -/
theorem relocation_outside_image :
    (elfLoadBufferAt (sampleEnv 0x7FFF0000) 0).isSome = true ∧
      ¬ ∀ out, elfLoadBufferAt (sampleEnv 0x7FFF0000) 0 = some out →
        out.Inside (sampleEnv 0x7FFF0000) := by
  have h : (elfLoadBufferAt (sampleEnv 0x7FFF0000) 0).any
      (fun out => ! decide (out.Inside (sampleEnv 0x7FFF0000))) = true := by decide +kernel
  cases hout : elfLoadBufferAt (sampleEnv 0x7FFF0000) 0 with
  | none => rw [hout] at h; cases h
  | some out =>
    rw [hout, any_some] at h
    refine ⟨rfl, fun hall => ?_⟩
    rw [decide_eq_true (hall out rfl)] at h
    cases h

end MinimalOS.Elf
