import Mathlib.Data.List.TakeWhile
import MinimalOS.Lib.Intervals
import MinimalOS.Minimafs.Extents

/-!
# What the block allocator keeps

The extents of a volume are a set of used blocks, kept as a list of intervals that is in order and
has gaps. Marking adds a range to the set, freeing removes one, and an allocation is the lowest run
of free blocks that is long enough.
-/

namespace MinimalOS.Minimafs

open Intervals List

abbrev Used (ext : List Extent) (b : ℕ) : Prop := Covers Extent.start Extent.stop ext b

abbrev Ordered (total : ℕ) (ext : List Extent) : Prop := Spread Extent.start Extent.stop total ext

abbrev usedBlocks (ext : List Extent) : ℕ := size Extent.start Extent.stop ext

variable {s e total : ℕ} {x : Extent} {xs ext : List Extent} {m : Merge}

theorem used_cons (b : ℕ) : Used (x :: xs) b ↔ (x.start ≤ b ∧ b < x.stop) ∨ Used xs b :=
  covers_cons b

theorem used_append (ys : List Extent) (b : ℕ) : Used (xs ++ ys) b ↔ Used xs b ∨ Used ys b :=
  covers_append b

/-! ## The merge -/

/-- The merge of the range from `s` to `e` with extents before `xs`. -/
structure Merging (s e total : ℕ) (m : Merge) (xs : List Extent) : Prop where
  low : m.ms ≤ s
  high : e ≤ m.me
  within : m.me ≤ total
  small : m.already ≤ e - s
  ahead : ∀ x ∈ xs, m.me = e ∨ m.me < x.start
  behind : ∀ x ∈ xs, m.ms = s ∨ s ≤ x.start
  counted : ∀ x ∈ xs, m.already = 0 ∨ s + m.already ≤ x.start

theorem Merging.take (h : Merging s e total m (x :: xs)) (hse : s < e)
    (hext : Ordered total (x :: xs)) (hs : s ≤ x.stop) (hm : x.start ≤ m.me) :
    Merging s e total (m.take s e x) xs ∧
      (m.take s e x).me - (m.take s e x).ms + (m.take s e x).already =
        m.me - m.ms + m.already + x.count := by
  obtain ⟨hproper, hwithin, hgap, -⟩ := spread_cons.mp hext
  have hlow := h.low
  have htop := h.within
  have hahead : m.me = e := (h.ahead x mem_cons_self).resolve_right (by omega)
  have hbehind := h.behind x mem_cons_self
  have hcounted := h.counted x mem_cons_self
  simp only [Extent.stop] at hwithin hgap hs
  refine ⟨⟨?_, ?_, ?_, ?_, fun y hy => ?_, fun y hy => ?_, fun y hy => ?_⟩, ?_⟩
  all_goals simp only [Merge.take, Extent.stop]
  · omega
  · omega
  · omega
  · omega
  · have := hgap y hy
    omega
  · have := hgap y hy
    omega
  · have := hgap y hy
    omega
  · omega

theorem mergeLoop_spec (hse : s < e) (hext : Ordered total xs) (hs : ∀ x ∈ xs, s ≤ x.stop)
    (h : Merging s e total m xs) :
    ∃ taken, xs = taken ++ (mergeLoop s e m xs).2 ∧
      (∀ x ∈ (mergeLoop s e m xs).2, (mergeLoop s e m xs).1.me < x.start) ∧
      (∀ b, (mergeLoop s e m xs).1.ms ≤ b ∧ b < (mergeLoop s e m xs).1.me ↔
        (m.ms ≤ b ∧ b < m.me) ∨ Used taken b) ∧
      (mergeLoop s e m xs).1.me ≤ total ∧ (mergeLoop s e m xs).1.ms ≤ s ∧
      e ≤ (mergeLoop s e m xs).1.me ∧ (mergeLoop s e m xs).1.already ≤ e - s ∧
      ((mergeLoop s e m xs).1.ms = m.ms ∨ ∃ x ∈ taken, (mergeLoop s e m xs).1.ms = x.start) ∧
      (mergeLoop s e m xs).1.me - (mergeLoop s e m xs).1.ms + (mergeLoop s e m xs).1.already =
        m.me - m.ms + m.already + usedBlocks taken := by
  induction xs generalizing m with
  | nil =>
    exact ⟨[], rfl, nofun, fun b => by simp [mergeLoop], h.within, h.low, h.high, h.small,
      .inl rfl, rfl⟩
  | cons x xs ih =>
    unfold mergeLoop
    split_ifs with hm
    · have hsx := hs x mem_cons_self
      obtain ⟨htake, hlength⟩ := h.take hse hext hsx hm
      obtain ⟨taken, heq, hrest, hcover, htop, hlow, hhigh, hsmall, hstart, hsize⟩ :=
        ih (spread_cons.mp hext).2.2.2 (fun y hy => hs y (mem_cons_of_mem x hy)) htake
      refine ⟨x :: taken, by rw [cons_append, ← heq], hrest, fun b => ?_, htop, hlow, hhigh,
        hsmall, ?_, ?_⟩
      · rw [hcover, used_cons, ← or_assoc]
        refine or_congr_left ?_
        have hlow' := h.low
        have hproper := (spread_cons.mp hext).1
        simp only [Merge.take] at hsx hproper ⊢
        omega
      · rcases hstart with hstart | ⟨y, hy, hstart⟩
        · rcases min_choice x.start m.ms with hmin | hmin
          · exact .inr ⟨x, mem_cons_self, hstart.trans hmin⟩
          · exact .inl (hstart.trans hmin)
        · exact .inr ⟨y, mem_cons_of_mem x hy, hstart⟩
      · rw [hsize]
        simp only [usedBlocks, size_cons, Extent.stop]
        omega
    · refine ⟨[], rfl, fun y hy => ?_, fun b => by simp, h.within, h.low, h.high, h.small,
        .inl rfl, rfl⟩
      rcases mem_cons.mp hy with rfl | hy
      · exact not_le.mp hm
      · have hgap := (spread_cons.mp hext).2.2.1 y hy
        have hproper := (spread_cons.mp hext).1
        dsimp only
        omega

/-! ## Marking -/

theorem splitBefore_spec (hext : Ordered total ext) (s : ℕ) :
    (splitBefore s ext).1 ++ (splitBefore s ext).2 = ext ∧
      (∀ y ∈ (splitBefore s ext).1, y.stop < s) ∧ ∀ x ∈ (splitBefore s ext).2, s ≤ x.stop := by
  unfold splitBefore
  rw [span_eq_takeWhile_dropWhile]
  refine ⟨takeWhile_append_dropWhile, fun y hy => ?_, fun x hx => ?_⟩
  · simpa using mem_takeWhile_imp hy
  · induction ext with
    | nil => cases hx
    | cons y ext ih =>
      obtain ⟨-, -, hgap, hrest⟩ := spread_cons.mp hext
      rw [dropWhile_cons] at hx
      split_ifs at hx with hy
      · exact ih hrest hx
      · have hy : s ≤ y.stop := by simpa using hy
        rcases mem_cons.mp hx with rfl | hx
        · exact hy
        · have := hgap x hx
          simp only [Extent.stop] at *
          omega

/-- Growing the list succeeds or is not needed: there is room for one more extent, or the range
touches one, or there is nothing to mark. -/
def MarkOk (heap : Bool) (a : BlockAlloc) (start count : ℕ) : Prop :=
  heap = true ∨ a.ext.length < a.cap ∨
    (∃ x ∈ a.ext, start ≤ x.stop ∧ x.start ≤ min (start + count) a.totalBlocks) ∨
    count = 0 ∨ a.totalBlocks ≤ start

variable {a : BlockAlloc} {heap : Bool} {count start : ℕ}

theorem baReserve_isSome {need : ℕ}
    (h : heap = true ∨ need ≤ a.cap) : ∃ cap, baReserve heap a need = some { a with cap := cap } := by
  unfold baReserve
  by_cases hcap : need ≤ a.cap
  · exact ⟨a.cap, if_pos hcap⟩
  · rw [if_neg hcap, if_pos (h.resolve_right hcap)]
    exact ⟨_, rfl⟩

structure Marked (a a' : BlockAlloc) (start count : ℕ) : Prop where
  total : a'.totalBlocks = a.totalBlocks
  ordered : Ordered a.totalBlocks a'.ext
  used : ∀ b, Used a'.ext b ↔ Used a.ext b ∨ (start ≤ b ∧ b < start + count ∧ b < a.totalBlocks)
  counted : ∃ newly, a'.freeBlocks = a.freeBlocks - newly ∧
    usedBlocks a'.ext = usedBlocks a.ext + newly

theorem merged_spec (hext : Ordered a.totalBlocks a.ext) (hcount : count ≠ 0)
    (hstart : start < a.totalBlocks) (he : e = min (start + count) a.totalBlocks)
    {r : Merge × List Extent} (hr : r = mergeLoop start e ⟨start, e, 0⟩ (splitBefore start a.ext).2)
    {cap : ℕ} :
    Marked a { a with
      freeBlocks := a.freeBlocks - ((e - start) - r.1.already), cap := cap
      ext := (splitBefore start a.ext).1 ++ ⟨r.1.ms, r.1.me - r.1.ms⟩ :: r.2 } start count := by
  obtain ⟨hsplit, hbefore, hfound⟩ := splitBefore_spec hext start
  have hse : start < e := by omega
  have hwhole : Ordered a.totalBlocks ((splitBefore start a.ext).1 ++ (splitBefore start a.ext).2) :=
    hsplit.symm ▸ hext
  obtain ⟨hordBefore, hordFound, hgap⟩ := spread_append.mp hwhole
  have hinit : Merging start e a.totalBlocks ⟨start, e, 0⟩ (splitBefore start a.ext).2 :=
    ⟨le_rfl, le_rfl, by dsimp only; omega, Nat.zero_le _, fun _ _ => .inl rfl,
      fun _ _ => .inl rfl, fun _ _ => .inl rfl⟩
  obtain ⟨taken, hfoundEq, hrest, hcover, htop, hlow, hhigh, hsmall, hms, hsize⟩ :=
    mergeLoop_spec hse hordFound hfound hinit
  rw [← hr] at hfoundEq hrest hcover htop hlow hhigh hsmall hms hsize
  have hordRest : Ordered a.totalBlocks r.2 := by
    rw [hfoundEq] at hordFound
    exact (spread_append.mp hordFound).2.1
  have hstop : r.1.ms + (r.1.me - r.1.ms) = r.1.me := by omega
  have hnew : Ordered a.totalBlocks (⟨r.1.ms, r.1.me - r.1.ms⟩ :: r.2) := by
    refine spread_cons.mpr ⟨?_, ?_, fun y hy => ?_, hordRest⟩
    all_goals simp only [hstop]
    · omega
    · exact htop
    · exact hrest y hy
  refine ⟨rfl, spread_append.mpr ⟨hordBefore, hnew, fun y hy z hz => ?_⟩, fun b => ?_, _, rfl, ?_⟩
  · -- the merged extent starts where the range or an extent behind `y` starts
    have hy' : y.stop < r.1.ms := by
      rcases hms with hms | ⟨x, hx, hms⟩
      · rw [hms]
        exact hbefore y hy
      · rw [hms]
        exact hgap y hy x (hfoundEq ▸ mem_append_left r.2 hx)
    rcases mem_cons.mp hz with rfl | hz
    · exact hy'
    · have := hrest z hz
      omega
  · have hold : Used a.ext b ↔ Used (splitBefore start a.ext).1 b ∨ Used taken b ∨ Used r.2 b := by
      rw [← used_append, ← used_append, ← hfoundEq, hsplit]
    have hrange : start ≤ b ∧ b < e ↔ start ≤ b ∧ b < start + count ∧ b < a.totalBlocks := by
      rw [he, lt_min_iff]
    rw [used_append, used_cons, Extent.stop]
    grind
  · have hold : usedBlocks a.ext =
        usedBlocks (splitBefore start a.ext).1 + (usedBlocks taken + usedBlocks r.2) := by
      rw [← size_append, ← size_append, ← hfoundEq, hsplit]
    have hnewSize : usedBlocks ((splitBefore start a.ext).1 ++ ⟨r.1.ms, r.1.me - r.1.ms⟩ :: r.2) =
        usedBlocks (splitBefore start a.ext).1 + (r.1.me - r.1.ms + usedBlocks r.2) := by
      rw [usedBlocks, size_append, size_cons, Extent.stop]
      rw [hstop]
    dsimp only at hsize ⊢
    rw [hold]
    clear hold hcover hrest hms hordRest hnew hr he
    omega

theorem mergeLoop_length_le (m : Merge) (xs : List Extent) :
    (mergeLoop s e m xs).2.length ≤ xs.length := by
  induction xs generalizing m with
  | nil => exact le_rfl
  | cons x xs ih =>
    unfold mergeLoop
    split_ifs
    · exact (ih _).trans (Nat.le_succ _)
    · exact le_rfl

theorem mergeLoop_length_lt (hext : Ordered total xs) (hx : x ∈ xs) (hxm : x.start ≤ m.me) :
    (mergeLoop s e m xs).2.length < xs.length := by
  cases xs with
  | nil => cases hx
  | cons y ys =>
    obtain ⟨hproper, -, hgap, -⟩ := spread_cons.mp hext
    have hy : y.start ≤ m.me := by
      rcases mem_cons.mp hx with rfl | hx
      · exact hxm
      · exact (hproper.trans (hgap x hx)).le.trans hxm
    unfold mergeLoop
    rw [if_pos hy]
    exact Nat.lt_succ_of_le (mergeLoop_length_le _ ys)

theorem baMarkUsed_marked (hext : Ordered a.totalBlocks a.ext) (hok : MarkOk heap a start count) :
    Marked a (baMarkUsed heap a start count) start count := by
  unfold baMarkUsed
  split_ifs with hnone
  · refine ⟨rfl, hext, fun b => ?_, 0, rfl, rfl⟩
    exact (or_iff_left (by omega)).symm
  · rw [not_or, not_le] at hnone
    obtain ⟨hcount, hstart⟩ := hnone
    dsimp only
    split_ifs with hsame
    · -- nothing was merged: there has to be room for a new extent
      have hroom : heap = true ∨ a.ext.length + 1 ≤ a.cap := by
        rcases hok with hheap | hcap | ⟨x, hx, hstop, hxs⟩ | hzero | hbeyond
        · exact .inl hheap
        · exact .inr hcap
        · obtain ⟨hsplit, hbefore, -⟩ := splitBefore_spec hext start
          have hfound : x ∈ (splitBefore start a.ext).2 := by
            rw [← hsplit] at hx
            exact (mem_append.mp hx).resolve_left fun hb =>
              absurd (hbefore x hb) (not_lt.mpr hstop)
          rw [← hsplit] at hext
          exact absurd hsame (mergeLoop_length_lt (spread_append.mp hext).2.1 hfound hxs).ne
        · exact absurd hzero hcount
        · omega
      obtain ⟨cap, hres⟩ := baReserve_isSome (a := { a with freeBlocks := a.freeBlocks -
        (min (start + count) a.totalBlocks - start - (mergeLoop start
          (min (start + count) a.totalBlocks) ⟨start, min (start + count) a.totalBlocks, 0⟩
          (splitBefore start a.ext).2).1.already) }) hroom
      rw [hres]
      exact merged_spec hext hcount hstart rfl rfl
    · exact merged_spec hext hcount hstart rfl rfl

theorem baMarkUsed_ext_of_not (hext : Ordered a.totalBlocks a.ext)
    (hok : ¬ MarkOk heap a start count) : (baMarkUsed heap a start count).ext = a.ext := by
  simp only [MarkOk, not_or, not_exists, not_and, not_le, Bool.not_eq_true] at hok
  obtain ⟨hheap, hcap, htouch, hcount, hstart⟩ := hok
  obtain ⟨hsplit, -, hfound⟩ := splitBefore_spec hext start
  set e := min (start + count) a.totalBlocks with he
  have hmerge : mergeLoop start e ⟨start, e, 0⟩ (splitBefore start a.ext).2 =
      (⟨start, e, 0⟩, (splitBefore start a.ext).2) := by
    cases hf : (splitBefore start a.ext).2 with
    | nil => rfl
    | cons x xs =>
      have hx : x ∈ (splitBefore start a.ext).2 := hf ▸ mem_cons_self
      have hlt := htouch x (hsplit ▸ mem_append_right _ hx) (hfound x hx)
      exact if_neg (not_le.mpr hlt)
  unfold baMarkUsed
  rw [if_neg (by rw [not_or, not_le]; exact ⟨hcount, hstart⟩)]
  dsimp only
  rw [hmerge, if_pos rfl]
  have hres : ∀ a' : BlockAlloc, a'.cap = a.cap → baReserve heap a' (a.ext.length + 1) = none := by
    intro a' ha'
    unfold baReserve
    rw [if_neg (by omega), hheap]
    rfl
  rw [hres]
  rfl

/-! ## Allocating -/

def FreeRun (total : ℕ) (ext : List Extent) (start count : ℕ) : Prop :=
  start + count ≤ total ∧ ∀ b, start ≤ b → b < start + count → ¬ Used ext b

/-- The lowest run behind block 0, or none if there is none. -/
def Lowest (total : ℕ) (ext : List Extent) (count : ℕ) : Option ℕ → Prop
  | some p => 1 ≤ p ∧ FreeRun total ext p count ∧ ∀ q, 1 ≤ q → q < p → ¬ FreeRun total ext q count
  | none => ∀ q, 1 ≤ q → ¬ FreeRun total ext q count

theorem findGap_lowest {cursor : ℕ} (before : List Extent) (hcount : 0 < count)
    (hext : Ordered total (before ++ xs)) (hcursor : 1 ≤ cursor)
    (hbefore : ∀ b, Used before b → b < cursor)
    (hnone : ∀ q, 1 ≤ q → q < cursor → ¬ FreeRun total (before ++ xs) q count) :
    Lowest total (before ++ xs) count (findGap total count cursor xs) := by
  induction xs generalizing before cursor with
  | nil =>
    unfold findGap
    split_ifs with hfits
    · refine ⟨hcursor, ⟨by omega, fun b hb _ hused => ?_⟩, hnone⟩
      rw [append_nil] at hused
      exact absurd (hbefore b hused) (not_lt.mpr hb)
    · intro q hq hfree
      by_cases hlt : q < cursor
      · exact hnone q hq hlt hfree
      · have := hfree.1
        omega
  | cons x xs ih =>
    obtain ⟨-, hxs, hgaps⟩ := spread_append.mp hext
    obtain ⟨hproper, hwithin, hlater, -⟩ := spread_cons.mp hxs
    have hxused : ∀ b, x.start ≤ b → b < x.stop → Used (before ++ x :: xs) b := fun b h1 h2 =>
      (used_append _ b).mpr (.inr ((used_cons b).mpr (.inl ⟨h1, h2⟩)))
    unfold findGap
    split_ifs with hfits
    · refine ⟨hcursor, ⟨by omega, fun b hb hlt hused => ?_⟩, hnone⟩
      rcases (used_append _ b).mp hused with hused | hused
      · exact absurd (hbefore b hused) (not_lt.mpr hb)
      · rcases (used_cons b).mp hused with hused | ⟨y, hy, hused⟩
        · omega
        · have := hlater y hy
          omega
    · -- a run that starts before the end of `x` would have to contain a block of `x`
      have hmove : before ++ x :: xs = (before ++ [x]) ++ xs := by simp
      rw [hmove] at hext hnone hxused ⊢
      refine ih _ hext (by omega) (fun b hb => ?_) fun q hq hlt hfree => ?_
      · rcases (used_append _ b).mp hb with hb | hb
        · have := hbefore b hb
          omega
        · have hb := ((used_cons b).mp hb).resolve_right (covers_nil b)
          omega
      · by_cases hold : q < cursor
        · exact hnone q hq hold hfree
        · by_cases hqx : q < x.start
          · exact hfree.2 x.start (by omega) (by omega) (hxused _ le_rfl hproper)
          · exact hfree.2 q le_rfl (by omega) (hxused q (by omega) (by omega))

theorem findGap_lowest_one (hext : Ordered a.totalBlocks a.ext) (hcount : 0 < count) :
    Lowest a.totalBlocks a.ext count (findGap a.totalBlocks count 1 a.ext) :=
  findGap_lowest [] hcount hext le_rfl (fun b hb => absurd hb (covers_nil b))
    fun _ hq hlt => absurd hq (not_le.mpr hlt)

theorem Lowest.borders {p : ℕ} (hcount : 0 < count) (hp : Lowest total ext count (some p))
    (hone : p ≠ 1) : ∃ x ∈ ext, x.stop = p ∧ x.start ≤ p := by
  obtain ⟨hpos, hfree, hlow⟩ := hp
  have hused : Used ext (p - 1) := by
    by_contra hnot
    refine hlow (p - 1) (by omega) (by omega) ⟨by have := hfree.1; omega, fun b hb hlt => ?_⟩
    by_cases hbp : b = p - 1
    · exact hbp ▸ hnot
    · exact hfree.2 b (by omega) (by omega)
  obtain ⟨x, hx, hstart, hstop⟩ := hused
  refine ⟨x, hx, ?_, by omega⟩
  by_contra hne
  exact hfree.2 p le_rfl (by omega) ⟨x, hx, by omega, by omega⟩

end MinimalOS.Minimafs
