import MinimalOS.Minimafs.Opened

/-!
# Searching a file

`findinfile` reads a file in chunks of 4096 bytes and steps back by one byte less than the needle
has, so that a match across a border is seen. A match in reach of a chunk is found. But the step
back is made at the end of the file too: when the needle is not there, the last chunk is one byte
shorter than the needle, and the loop reads it for ever. A needle longer than a chunk is never
found.
-/

namespace MinimalOS.Minimafs

open CString Fs List

variable {d d' : Drive} {env : Env} {h : FileHandle} {c needle path : List UInt8}

/-! ## Occurrences -/

/-- The needle is at `k` and nowhere before. -/
def FirstAt (needle c : List UInt8) (k : ℕ) : Prop :=
  needle <+: c.drop k ∧ ∀ j < k, ¬ needle <+: c.drop j

def Absent (needle c : List UInt8) : Prop := ∀ j, ¬ needle <+: c.drop j

/-- What the search is for: the first offset, or -1. -/
def Answer (needle c : List UInt8) (r : ℤ) : Prop :=
  (∃ k : ℕ, FirstAt needle c k ∧ r = k) ∨ (Absent needle c ∧ r = -1)

variable {k offset i : ℕ} {buf : List UInt8}

theorem FirstAt.unique {j : ℕ} (hj : FirstAt needle c j) (hk : FirstAt needle c k) : j = k := by
  rcases lt_trichotomy j k with h | h | h
  · exact absurd hj.1 (hk.2 j h)
  · exact h
  · exact absurd hk.1 (hj.2 k h)

theorem length_le_of_at (h : needle <+: c.drop k) (hne : needle ≠ []) :
    k + needle.length ≤ c.length := by
  have hlen := h.length_le
  have hpos := length_pos_iff.mpr hne
  rw [length_drop] at hlen
  omega

def chunkAt (c : List UInt8) (offset : ℕ) : List UInt8 :=
  (c.drop offset).take (min (c.length - offset) chunkSize)

theorem length_chunkAt (c : List UInt8) (offset : ℕ) :
    (chunkAt c offset).length = min (c.length - offset) chunkSize := by
  rw [chunkAt, length_take, length_drop]
  omega

/-- The needle is at a place of the chunk if it is there in the file and ends in the chunk. -/
theorem prefix_chunkAt_iff (hi : i + needle.length ≤ (chunkAt c offset).length) :
    needle <+: (chunkAt c offset).drop i ↔ needle <+: c.drop (offset + i) := by
  rw [length_chunkAt] at hi
  rw [chunkAt, drop_take, drop_drop, prefix_take_iff]
  exact and_iff_left (by omega)

theorem findInChunk_eq_none_iff :
    findInChunk needle buf = none ↔
      ∀ i, i + needle.length ≤ buf.length → ¬ needle <+: buf.drop i := by
  unfold findInChunk
  rw [List.find?_eq_none]
  simp only [mem_range, isPrefixOf_iff_prefix]
  exact ⟨fun h i hi => h i (by omega), fun h i hi => h i (by omega)⟩

theorem findInChunk_eq_some (h : findInChunk needle buf = some i) :
    i + needle.length ≤ buf.length ∧ needle <+: buf.drop i ∧ ∀ j < i, ¬ needle <+: buf.drop j := by
  unfold findInChunk at h
  rw [List.find?_range_eq_some] at h
  obtain ⟨hp, hmem, hbefore⟩ := h
  rw [mem_range] at hmem
  exact ⟨by omega, isPrefixOf_iff_prefix.mp hp, fun j hj hpre => by
    have hfound := isPrefixOf_iff_prefix.mpr hpre
    simpa [hfound] using hbefore j hj⟩

/-! ## One round -/

def nextOffset (needle c : List UInt8) (offset : ℕ) : ℕ :=
  if 1 < needle.length ∧ needle.length - 1 ≤ (chunkAt c offset).length then
    offset + ((chunkAt c offset).length - (needle.length - 1))
  else offset + (chunkAt c offset).length

theorem nextOffset_le (needle : List UInt8) (h : offset ≤ c.length) :
    nextOffset needle c offset ≤ c.length := by
  have hlen := length_chunkAt c offset
  unfold nextOffset
  split_ifs <;> omega

section

variable (hread : env.Reads) (hmounted : d.mounted = true) (hs : Serves d c h)

include hread hmounted hs

theorem findLoop_read (hoff : offset < c.length) (t : ℕ) :
    ∃ h' u, Serves d c h' ∧
      readFile env (h.seek offset) (min (h.dataSize - offset) chunkSize) (d.later t) =
        (.ok (chunkAt c offset, h'), d.later u) := by
  have hsize := hs.length
  obtain ⟨hs', hpos⟩ := hs.seek offset
  obtain ⟨h', ⟨u, hu⟩, -, hserves⟩ := hs'.read hread hmounted (min (h.dataSize - offset) chunkSize) t
  rw [hpos, Nat.min_eq_left hoff.le] at hu
  refine ⟨h', u, hserves, ?_⟩
  rw [hu, hsize]
  rfl

/-- **One round** of the loop inside the file. -/
theorem findLoop_step (hsmall : c.length < 2 ^ 32) (hroom : chunkSize + needle.length < 2 ^ 32)
    (hoff : offset < c.length) (fuel t : ℕ) :
    ∃ h' u, Serves d c h' ∧ findLoop env needle (fuel + 1) offset h (d.later t) =
      match findInChunk needle (chunkAt c offset) with
      | some i => (.ok (some (u32 (offset + i)), h'), d.later u)
      | none => findLoop env needle fuel (nextOffset needle c offset) h' (d.later u) := by
  obtain ⟨h', u, hserves, hu⟩ := findLoop_read hread hmounted hs hoff t
  have hsize := hs.length
  have hlen := length_chunkAt c offset
  have hne : chunkAt c offset ≠ [] := ne_nil_of_length_pos (by
    rw [hlen]
    exact lt_min (by omega) (by decide))
  refine ⟨h', u, hserves, ?_⟩
  rw [findLoop, if_neg (by omega)]
  refine (bind_ok hu).trans ?_
  dsimp only
  rw [if_neg (by rw [u32_eq_self hroom]; omega), if_neg hne]
  cases hfind : findInChunk needle (chunkAt c offset) with
  | some i => rfl
  | none =>
    have hle := nextOffset_le needle hoff.le
    unfold nextOffset at ⊢
    split_ifs at ⊢ with hback
    · rw [u32_eq_self (by omega)]
    · rw [u32_eq_self (by omega)]

theorem findLoop_overrun (hsmall : c.length < 2 ^ 32) (hroom : 2 ^ 32 ≤ chunkSize + needle.length)
    (hfits : needle.length ≤ c.length) (fuel t : ℕ) :
    (findLoop env needle (fuel + 1) 0 h (d.later t)).1 = .error .crashed := by
  have hroom' : 2 ^ 32 ≤ 4096 + needle.length := hroom
  obtain ⟨h', u, -, hu⟩ := findLoop_read hread hmounted hs (show 0 < c.length by omega) t
  have hsize := hs.length
  have hlen : (chunkAt c 0).length = 4096 := by
    rw [length_chunkAt]
    exact min_eq_right (show 4096 ≤ c.length - 0 by omega)
  have hwrap : u32 (chunkSize + needle.length) < (chunkAt c 0).length := by
    rw [hlen]
    show (4096 + needle.length) % 2 ^ 32 < 4096
    omega
  rw [findLoop, if_neg (by omega), bind_ok hu]
  dsimp only
  rw [if_pos hwrap]
  rfl

end

/-! ## The loop -/

section Loop

variable (hread : env.Reads) (hmounted : d.mounted = true) (hsmall : c.length < 2 ^ 32)
  (hroom : chunkSize + needle.length < 2 ^ 32)

include hread hmounted hsmall hroom

variable {fuel offset : ℕ}

theorem findLoop_found (hne : needle ≠ []) (hn : needle.length ≤ chunkSize)
    (hk : FirstAt needle c k) (hs : Serves d c h) (hoff : offset ≤ k) (hfuel : k - offset < fuel)
    (t : ℕ) :
    ∃ h' u, findLoop env needle fuel offset h (d.later t) = (.ok (some k, h'), d.later u) := by
  have hpos := length_pos_iff.mpr hne
  have hend := length_le_of_at hk.1 hne
  induction fuel generalizing offset h t with
  | zero => omega
  | succ fuel ih =>
    obtain ⟨h', u, hs', hstep⟩ := findLoop_step hread hmounted hs hsmall hroom
      (show offset < c.length by omega) fuel t
    have hlen := length_chunkAt c offset
    rw [hstep]
    cases hfind : findInChunk needle (chunkAt c offset) with
    | some i =>
      obtain ⟨hi, hpre, hbefore⟩ := findInChunk_eq_some hfind
      have hik : offset + i = k := by
        rw [prefix_chunkAt_iff hi] at hpre
        rcases lt_trichotomy (offset + i) k with hlt | heq | hgt
        · exact absurd hpre (hk.2 _ hlt)
        · exact heq
        · refine absurd ?_ (hbefore (k - offset) (by omega))
          rw [prefix_chunkAt_iff (by omega), Nat.add_sub_cancel' hoff]
          exact hk.1
      refine ⟨h', u, ?_⟩
      dsimp only
      rw [hik, u32_eq_self (by omega)]
    | none =>
      have hout : (chunkAt c offset).length < k - offset + needle.length := by
        by_contra hin
        refine findInChunk_eq_none_iff.mp hfind (k - offset) (not_lt.mp hin) ?_
        rw [prefix_chunkAt_iff (not_lt.mp hin), Nat.add_sub_cancel' hoff]
        exact hk.1
      have hnext : offset < nextOffset needle c offset ∧ nextOffset needle c offset ≤ k := by
        unfold nextOffset
        split_ifs <;> omega
      exact ih hs' hnext.2 (by omega) u

theorem findLoop_exhausted (hnever : ∀ offset, findInChunk needle (chunkAt c offset) = none)
    (hstep : ∀ offset, nextOffset needle c offset = offset + (chunkAt c offset).length)
    (hs : Serves d c h) (hoff : offset ≤ c.length) (hfuel : c.length - offset < fuel) (t : ℕ) :
    ∃ h' u, findLoop env needle fuel offset h (d.later t) = (.ok (none, h'), d.later u) := by
  induction fuel generalizing offset h t with
  | zero => omega
  | succ fuel ih =>
    by_cases hdone : c.length ≤ offset
    · refine ⟨h, t, ?_⟩
      rw [findLoop, if_pos (hs.length.trans_le hdone)]
      rfl
    · obtain ⟨h', u, hs', heq⟩ := findLoop_step hread hmounted hs hsmall hroom
        (not_le.mp hdone) fuel t
      rw [heq, hnever, hstep]
      have hlen := length_chunkAt c offset
      have hchunk : 0 < chunkSize := by decide
      exact ih hs' (by omega) (by omega) u

/-- A needle that no chunk has, when the last bytes of the file are read again and again. -/
theorem findLoop_endless (hnever : ∀ offset, findInChunk needle (chunkAt c offset) = none)
    (htwo : 2 ≤ needle.length) (hn : needle.length ≤ chunkSize + 1) (hs : Serves d c h)
    (hoff : offset + (needle.length - 1) ≤ c.length) (fuel t : ℕ) :
    (findLoop env needle fuel offset h (d.later t)).1 = .error .looping := by
  induction fuel generalizing offset h t with
  | zero => rfl
  | succ fuel ih =>
    obtain ⟨h', u, hs', heq⟩ := findLoop_step hread hmounted hs hsmall hroom
      (show offset < c.length by omega) fuel t
    have hlen := length_chunkAt c offset
    have hback : nextOffset needle c offset =
        offset + ((chunkAt c offset).length - (needle.length - 1)) := if_pos (by omega)
    rw [heq, hnever]
    exact ih hs' (by omega) u

end Loop

theorem Absent.never (h : Absent needle c) (offset : ℕ) :
    findInChunk needle (chunkAt c offset) = none :=
  findInChunk_eq_none_iff.mpr fun i hi hpre => h (offset + i) ((prefix_chunkAt_iff hi).mp hpre)

theorem never_of_long (h : chunkSize < needle.length) (offset : ℕ) :
    findInChunk needle (chunkAt c offset) = none := by
  have hlen := length_chunkAt c offset
  exact findInChunk_eq_none_iff.mpr fun i hi => by omega

/-! ## The search -/

/-- What the search compares: the needle cut to a length of 32 bits. -/
def compared (needle : List UInt8) : List UInt8 := needle.take (u32 needle.length)

theorem compared_eq (h : needle.length < 2 ^ 32) : compared needle = needle := by
  rw [compared, u32_eq_self h, take_length]

theorem length_compared (needle : List UInt8) : (compared needle).length = u32 needle.length := by
  rw [compared, length_take]
  exact min_eq_left (Nat.mod_le _ _)

/-- When the search ends with the right answer: a needle in the file must fit a chunk and be at an
offset below `2 ^ 31`; one that is not there must be a single byte, longer than the file, or longer
than a chunk by two bytes or more, where a needle of 4 GiB and more counts as what is compared of
it. -/
def Searchable (needle c : List UInt8) : Prop :=
  (needle.length ≤ chunkSize ∧ ∃ k < 2 ^ 31, FirstAt needle c k) ∨
    (Absent needle c ∧ (compared needle = [] ∨ c.length < (compared needle).length ∨
      ((compared needle).length = 1 ∧ Absent (compared needle) c) ∨
      (chunkSize + 2 ≤ (compared needle).length ∧ chunkSize + (compared needle).length < 2 ^ 32)))

/-- The search of an open file ends with `r`, given time. -/
def EndsWith (env : Env) (needle : List UInt8) (h : FileHandle) (d : Drive) (r : ℤ) : Prop :=
  ∃ rounds, ∀ fuel ≥ rounds, (findInHandle env fuel needle h d).1 = .ok r

theorem EndsWith.unique {r s : ℤ} (hr : EndsWith env needle h d r) (hs : EndsWith env needle h d s) :
    r = s := by
  obtain ⟨m, hm⟩ := hr
  obtain ⟨n, hn⟩ := hs
  exact Except.ok.inj ((hm (max m n) (le_max_left m n)).symm.trans
    (hn (max m n) (le_max_right m n)))

theorem endsWith_short (hshort : compared needle = [] ∨ h.dataSize < (compared needle).length) :
    EndsWith env needle h d (-1) := by
  refine ⟨0, fun fuel _ => ?_⟩
  have hrun : findInHandle env fuel needle h d = (.ok (-1), d) := congrFun (if_pos hshort) d
  rw [hrun]

theorem findInHandle_run (hheap : ∀ t, env.heap t = true) (hne : compared needle ≠ [])
    (hfits : (compared needle).length ≤ h.dataSize) (fuel : ℕ) :
    findInHandle env fuel needle h d =
      (do
        let r ← findLoop env (compared needle) fuel 0 h
        pure ((r.1.map toInt32).getD (-1)) : Fs ℤ) (d.later (d.moment + 1)) := by
  have hnot : ¬ (compared needle = [] ∨ h.dataSize < (compared needle).length) := by
    rw [not_or, not_lt]
    exact ⟨hne, hfits⟩
  refine (congrFun (if_neg hnot) d).trans ?_
  rw [bind_ok (attempt_ok (request_run (hheap _)))]
  rfl

section Search

variable (hread : env.Reads) (hheap : ∀ t, env.heap t = true) (hmounted : d.mounted = true)
  (hsmall : c.length < 2 ^ 32) (hs : Serves d c h) (hne : compared needle ≠ [])

include hread hheap hmounted hsmall hs hne

theorem endsWith_found (hn : (compared needle).length ≤ chunkSize)
    (hk : FirstAt (compared needle) c k) : EndsWith env needle h d (toInt32 k) := by
  have hend := length_le_of_at hk.1 hne
  have hroom : chunkSize + (compared needle).length < 2 ^ 32 := by
    show 4096 + (compared needle).length < 2 ^ 32
    have : (compared needle).length ≤ 4096 := hn
    omega
  refine ⟨k + 1, fun fuel hfuel => ?_⟩
  obtain ⟨h', u, hu⟩ := findLoop_found hread hmounted hsmall hroom hne hn hk hs (Nat.zero_le k)
    (show k - 0 < fuel by omega) (d.moment + 1)
  rw [findInHandle_run hheap hne (by rw [hs.length]; omega), bind_ok hu]
  rfl

variable (hfits : (compared needle).length ≤ c.length)

include hfits

section

variable (hnever : ∀ offset, findInChunk (compared needle) (chunkAt c offset) = none)

include hnever

theorem endsWith_exhausted
    (hstep : ∀ offset, nextOffset (compared needle) c offset = offset + (chunkAt c offset).length)
    (hroom : chunkSize + (compared needle).length < 2 ^ 32) : EndsWith env needle h d (-1) := by
  refine ⟨c.length + 1, fun fuel hfuel => ?_⟩
  obtain ⟨h', u, hu⟩ := findLoop_exhausted hread hmounted hsmall hroom hnever hstep hs
    (Nat.zero_le _) (show c.length - 0 < fuel by omega) (d.moment + 1)
  rw [findInHandle_run hheap hne (by rw [hs.length]; exact hfits), bind_ok hu]
  rfl

theorem findInHandle_endless (htwo : 2 ≤ (compared needle).length)
    (hn : (compared needle).length ≤ chunkSize + 1) (fuel : ℕ) :
    (findInHandle env fuel needle h d).1 = .error .looping := by
  have hroom : chunkSize + (compared needle).length < 2 ^ 32 := by
    show 4096 + (compared needle).length < 2 ^ 32
    have : (compared needle).length ≤ 4096 + 1 := hn
    omega
  rw [findInHandle_run hheap hne (by rw [hs.length]; exact hfits)]
  exact bind_fst_error (findLoop_endless hread hmounted hsmall hroom hnever htwo hn hs
    (show 0 + ((compared needle).length - 1) ≤ c.length by omega) fuel (d.moment + 1))

end

theorem not_endsWith_overrun (hroom : 2 ^ 32 ≤ chunkSize + (compared needle).length) (r : ℤ) :
    ¬ EndsWith env needle h d r := by
  rintro ⟨rounds, hall⟩
  have hu := hall (rounds + 1) (Nat.le_succ rounds)
  rw [findInHandle_run hheap hne (by rw [hs.length]; exact hfits)] at hu
  have hloop := findLoop_overrun hread hmounted hs hsmall hroom hfits rounds (d.moment + 1)
  exact absurd (hu.symm.trans (bind_fst_error hloop)) nofun

end Search

theorem exists_firstAt (h : ¬ Absent needle c) : ∃ k, FirstAt needle c k := by
  classical
  have hex : ∃ k, needle <+: c.drop k := by
    unfold Absent at h
    push Not at h
    exact h
  exact ⟨Nat.find hex, Nat.find_spec hex, fun j hj => Nat.find_min hex hj⟩

theorem FirstAt.not_absent (hk : FirstAt needle c k) : ¬ Absent needle c :=
  fun h => h k hk.1

theorem absent_of_long (h : c.length < needle.length) : Absent needle c := by
  intro j hpre
  have := hpre.length_le
  rw [length_drop] at this
  omega

theorem Absent.of_compared (h : Absent (compared needle) c) : Absent needle c :=
  fun j hpre => h j (( take_prefix _ _).trans hpre)

theorem length_compared_le (needle : List UInt8) : (compared needle).length ≤ needle.length :=
  (length_compared needle).trans_le (Nat.mod_le _ _)

theorem answer_neg_one_iff : Answer needle c (-1) ↔ Absent needle c := by
  constructor
  · rintro (⟨k, -, hk⟩ | ⟨h, -⟩)
    · omega
    · exact h
  · exact fun h => .inr ⟨h, rfl⟩

/-- What is found is the answer if the whole needle was compared and the offset is not taken for a
negative number. -/
theorem answer_toInt32_iff (hne : compared needle ≠ []) (hsmall : c.length < 2 ^ 32)
    (hk : FirstAt (compared needle) c k) :
    Answer needle c (toInt32 k) ↔ needle.length < 2 ^ 32 ∧ k < 2 ^ 31 := by
  have hpos := length_pos_iff.mpr hne
  have hend := length_le_of_at hk.1 hne
  constructor
  · rintro (⟨j, hj, heq⟩ | ⟨-, heq⟩)
    · have hlong : needle.length < 2 ^ 32 := by
        by_contra hge
        exact hj.not_absent (absent_of_long (by omega))
      rw [compared_eq hlong] at hk
      rw [toInt32] at heq
      split_ifs at heq with hlow
      · exact ⟨hlong, hlow⟩
      · omega
    · rw [toInt32] at heq
      omega
  · rintro ⟨hlong, hlow⟩
    rw [compared_eq hlong] at hk
    exact .inl ⟨k, hk, if_pos hlow⟩

theorem EndsWith.right_iff {r : ℤ} (hr : EndsWith env needle h d r) :
    (∃ s, Answer needle c s ∧ EndsWith env needle h d s) ↔ Answer needle c r := by
  constructor
  · rintro ⟨s, hs, hends⟩
    rwa [hr.unique hends]
  · exact fun h => ⟨r, h, hr⟩

theorem nextOffset_of_single (hone : needle.length = 1) (offset : ℕ) :
    nextOffset needle c offset = offset + (chunkAt c offset).length :=
  if_neg (by omega)

theorem nextOffset_of_long (hlong : chunkSize + 2 ≤ needle.length) (offset : ℕ) :
    nextOffset needle c offset = offset + (chunkAt c offset).length := by
  have hlen := length_chunkAt c offset
  exact if_neg (by omega)

theorem compared_eq_of_chunk (h : needle.length ≤ chunkSize) : compared needle = needle := by
  have : needle.length ≤ 4096 := h
  exact compared_eq (by omega)

theorem search_refused (hsmall : c.length < 2 ^ 32) (hsize : h.dataSize = c.length)
    (hne : needle ≠ []) (hshort : compared needle = [] ∨ c.length < (compared needle).length) :
    (∃ r, Answer needle c r ∧ EndsWith env needle h d r) ↔ Searchable needle c := by
  have hpos := length_pos_iff.mpr hne
  have hlen : (compared needle).length = needle.length % 2 ^ 32 := length_compared needle
  have habsent : Absent needle c := by
    refine absent_of_long ?_
    rcases hshort with h | h
    · rw [h, length_nil] at hlen
      omega
    · omega
  rw [(endsWith_short (hsize.symm ▸ hshort)).right_iff, answer_neg_one_iff]
  exact iff_of_true habsent (.inr ⟨habsent, hshort.imp_right .inl⟩)

section Cases

variable (hread : env.Reads) (hheap : ∀ t, env.heap t = true) (hmounted : d.mounted = true)
  (hsmall : c.length < 2 ^ 32) (hs : Serves d c h) (hne : compared needle ≠ [])
  (hfits : (compared needle).length ≤ c.length)

include hread hheap hmounted hsmall hs hne hfits

theorem search_overrun (hroom : 2 ^ 32 ≤ chunkSize + (compared needle).length) :
    (∃ r, Answer needle c r ∧ EndsWith env needle h d r) ↔ Searchable needle c := by
  have hcut := length_compared_le needle
  refine iff_of_false (fun ⟨r, _, hr⟩ => not_endsWith_overrun hread hheap hmounted hsmall hs hne
    hfits hroom r hr) ?_
  have hroom' : 2 ^ 32 ≤ 4096 + (compared needle).length := hroom
  rintro (⟨hn, -⟩ | ⟨-, h | h | h | h⟩)
  · have : needle.length ≤ 4096 := hn
    omega
  · exact hne h
  · omega
  · omega
  · omega

theorem search_long (hroom : chunkSize + (compared needle).length < 2 ^ 32)
    (hlong : chunkSize + 2 ≤ (compared needle).length) :
    (∃ r, Answer needle c r ∧ EndsWith env needle h d r) ↔ Searchable needle c := by
  have hcut := length_compared_le needle
  rw [(endsWith_exhausted hread hheap hmounted hsmall hs hne hfits (never_of_long (by omega))
    (nextOffset_of_long hlong) hroom).right_iff, answer_neg_one_iff]
  refine ⟨fun h => .inr ⟨h, .inr (.inr (.inr ⟨hlong, hroom⟩))⟩, ?_⟩
  rintro (⟨hn, -⟩ | ⟨h, -⟩)
  · omega
  · exact h

theorem search_found (hn : (compared needle).length ≤ chunkSize)
    (hthere : ¬ Absent (compared needle) c) :
    (∃ r, Answer needle c r ∧ EndsWith env needle h d r) ↔ Searchable needle c := by
  obtain ⟨k, hk⟩ := exists_firstAt hthere
  rw [(endsWith_found hread hheap hmounted hsmall hs hne hn hk).right_iff,
    answer_toInt32_iff hne hsmall hk]
  constructor
  · rintro ⟨hshort, hlow⟩
    rw [compared_eq hshort] at hn hk
    exact .inl ⟨hn, k, hlow, hk⟩
  · rintro (⟨hn, j, hlow, hj⟩ | ⟨-, h | h | h | h⟩)
    · have : needle.length ≤ 4096 := hn
      rw [compared_eq_of_chunk hn] at hk
      exact ⟨by omega, hk.unique hj ▸ hlow⟩
    · exact absurd h hne
    · omega
    · exact absurd h.2 hthere
    · omega

theorem search_single (hone : (compared needle).length = 1) (habsent : Absent (compared needle) c) :
    (∃ r, Answer needle c r ∧ EndsWith env needle h d r) ↔ Searchable needle c := by
  have hroom : chunkSize + (compared needle).length < 2 ^ 32 := by
    rw [hone]
    decide
  rw [(endsWith_exhausted hread hheap hmounted hsmall hs hne hfits habsent.never
    (nextOffset_of_single hone) hroom).right_iff, answer_neg_one_iff]
  exact iff_of_true habsent.of_compared
    (.inr ⟨habsent.of_compared, .inr (.inr (.inl ⟨hone, habsent⟩))⟩)

theorem search_endless (htwo : 2 ≤ (compared needle).length)
    (hn : (compared needle).length ≤ chunkSize + 1)
    (hnot : (compared needle).length ≤ chunkSize → Absent (compared needle) c) :
    (∃ r, Answer needle c r ∧ EndsWith env needle h d r) ↔ Searchable needle c := by
  have hnever : ∀ offset, findInChunk (compared needle) (chunkAt c offset) = none := by
    by_cases hchunk : (compared needle).length ≤ chunkSize
    · exact (hnot hchunk).never
    · exact never_of_long (not_le.mp hchunk)
  refine iff_of_false (fun ⟨r, _, rounds, hr⟩ => ?_) ?_
  · exact absurd ((hr rounds le_rfl).symm.trans (findInHandle_endless hread hheap hmounted hsmall
      hs hne hfits hnever htwo hn rounds)) nofun
  rintro (⟨hn, k, -, hk⟩ | ⟨-, h | h | h | h⟩)
  · rw [compared_eq_of_chunk hn] at hnot
    exact hk.not_absent (hnot hn)
  · exact hne h
  · omega
  · omega
  · omega

end Cases

/-- **The search of an open file.** -/
theorem search_iff (hread : env.Reads) (hheap : ∀ t, env.heap t = true)
    (hmounted : d.mounted = true) (hsmall : c.length < 2 ^ 32) (hsize : h.dataSize = c.length)
    (hs : h.dataSize = 0 ∨ Serves d c h) (hne : needle ≠ []) :
    (∃ r, Answer needle c r ∧ EndsWith env needle h d r) ↔ Searchable needle c := by
  by_cases hshort : compared needle = [] ∨ c.length < (compared needle).length
  · exact search_refused hsmall hsize hne hshort
  obtain ⟨hcne, hfits⟩ := not_or.mp hshort
  rw [not_lt] at hfits
  have hpos := length_pos_iff.mpr hcne
  have hs : Serves d c h := hs.resolve_left (by omega)
  by_cases hroom : 2 ^ 32 ≤ chunkSize + (compared needle).length
  · exact search_overrun hread hheap hmounted hsmall hs hcne hfits hroom
  by_cases hlong : chunkSize + 2 ≤ (compared needle).length
  · exact search_long hread hheap hmounted hsmall hs hcne hfits (not_le.mp hroom) hlong
  by_cases hfound : (compared needle).length ≤ chunkSize ∧ ¬ Absent (compared needle) c
  · exact search_found hread hheap hmounted hsmall hs hcne hfits hfound.1 hfound.2
  rw [not_and, not_not] at hfound
  by_cases hone : (compared needle).length = 1
  · exact search_single hread hheap hmounted hsmall hs hcne hfits hone
      (hfound (by rw [hone]; decide))
  · exact search_endless hread hheap hmounted hsmall hs hcne hfits (by omega) (by omega) hfound

/-! ## The search of a file -/

theorem closeFile_readOnly (hro : h.readOnly = true) (d : Drive) :
    closeFile env h d = (.ok (), d) := by
  unfold closeFile
  rw [bind_ok (show (get : Fs Drive) d = (.ok d, d) from rfl), hro, if_neg (by simp)]
  rfl

theorem findInFile_eq (ho : openFile env path true d = (.ok h, d')) (hro : h.readOnly = true)
    (fuel : ℕ) : (findInFile env fuel needle path d).1 = (findInHandle env fuel needle h d').1 := by
  unfold findInFile
  rw [bind_ok (attempt_ok ho)]
  dsimp only
  cases hfind : findInHandle env fuel needle h d' with
  | mk r d₁ =>
    cases r with
    | error e => rw [bind_error hfind]
    | ok r =>
      rw [bind_ok hfind, bind_ok (closeFile_readOnly hro d₁)]
      rfl

/-- **Searching a file.** On a machine that serves every request, `findinfile` ends with the right
answer exactly for the needles described above. -/
theorem findInFile_right_iff (env : Env) (hread : env.Reads) (hheap : ∀ t, env.heap t = true)
    (d : Drive) (path : List UInt8) {h : FileHandle} (ho : (openFile env path true d).1 = .ok h)
    (hsound : h.Sound) {needle : List UInt8} (hne : needle ≠ []) :
    (∃ r, Answer needle (h.contents d) r ∧
        ∃ rounds, ∀ fuel ≥ rounds, (findInFile env fuel needle path d).1 = .ok r) ↔
      Searchable needle (h.contents d) := by
  obtain ⟨⟨entry, x, hopened⟩, t, ht⟩ := openFile_opened hread (Prod.ext ho rfl)
  have hrun : openFile env path true d = (.ok h, d.later t) := Prod.ext ho ht
  have hlen := hsound.length_contents d
  have hserves : h.dataSize = 0 ∨ Serves (d.later t) (h.contents d) h :=
    (hopened.serves hsound).imp_right (·.later t)
  have hsmall : (h.contents d).length < 2 ^ 32 := by
    rw [hlen]
    exact hsound.size
  have hmounted : d.mounted = true := openFile_mounted ho
  rw [← search_iff hread hheap (show (d.later t).mounted = true from hmounted) hsmall hlen.symm hserves hne]
  unfold EndsWith
  simp only [findInFile_eq hrun hopened.readOnly_eq]

def helloDrive : Drive :=
  { calmDrive with
    storageDesc := { rootBlock := 2 }
    disk := fun b => Block.ofBytes
      (if b = 2 then ascii "FOLDER:/\nENTRIES:1\nENTRY:a,FILE,BLOCK:3,COUNT:1,HIDDEN:0\n@END\n"
      else ascii "@HEADER@\n@FILELEN:51@\n@DATALEN:5@\n@DATA@\nhello@END\n") }

def helloHandle : FileHandle :=
  (FileHandle.opened (ascii "a") true ⟨ascii "a", .file, 3, 1, false⟩
    ⟨{ fileLength := 51, dataLength := 5, blockOffset := 3, blockCount := 1 }, 41, 5⟩).loaded
      (ascii "hello")

theorem openFile_hello : (openFile calmEnv (ascii "a") true helloDrive).1 = .ok helloHandle := by
  decide +kernel

theorem contents_hello : helloHandle.contents helloDrive = ascii "hello" := by
  decide +kernel

theorem findInFile_right_iff_sample :
    ∃ r, Answer (ascii "llo") (helloHandle.contents helloDrive) r ∧
      ∃ rounds, ∀ fuel ≥ rounds,
        (findInFile calmEnv fuel (ascii "llo") (ascii "a") helloDrive).1 = .ok r :=
  (findInFile_right_iff calmEnv (fun _ _ => rfl) (fun _ => rfl) helloDrive (ascii "a")
    openFile_hello ⟨⟨by decide, by decide⟩, by decide, by decide⟩ (by decide)).mpr
    (.inl ⟨by decide, 2, by decide, by rw [contents_hello]; unfold FirstAt; decide⟩)

/-- Two bytes that are not there are searched for without end. -/
theorem findInFile_never_ends :
    Absent (ascii "xy") (helloHandle.contents helloDrive) ∧
      ∀ fuel, (findInFile calmEnv fuel (ascii "xy") (ascii "a") helloDrive).1 = .error .looping := by
  have hread : calmEnv.Reads := fun _ _ => rfl
  have habsent : Absent (ascii "xy") (ascii "hello") := by
    intro j hpre
    have hend := length_le_of_at hpre (by decide)
    rw [show (ascii "hello").length = 5 by decide, show (ascii "xy").length = 2 by decide] at hend
    have hj : j ≤ 3 := by omega
    interval_cases j <;> revert hpre <;> decide
  have hcompared : compared (ascii "xy") = ascii "xy" := by decide
  refine ⟨habsent, fun fuel => ?_⟩
  have hquiet : Quiet (openFile calmEnv (ascii "a") true) := quiet_openFile _
  obtain ⟨t, ht⟩ := hquiet helloDrive
  rw [findInFile_eq (Prod.ext openFile_hello ht) rfl]
  exact findInHandle_endless hread (fun _ => rfl) rfl (by decide)
    (.inl ⟨rfl, rfl, by decide, by decide⟩) (by decide) (by decide)
    (by rw [hcompared]; exact habsent.never) (by decide) (by decide) fuel

end MinimalOS.Minimafs
