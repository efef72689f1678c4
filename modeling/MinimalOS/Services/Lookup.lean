import MinimalOS.Minimafs.Header

/-!
# Monitors of `impl/kernel/servicemananager.c`

The service manager makes a monitor process for every service it registers. A monitor knows its
service only by the name of its own process, which is the file name with an address and a number
behind an at sign, and takes the first service whose file name and an at sign begin it.
-/

namespace MinimalOS.Services

open CString Minimafs

/-- The name that `proc_create_ex` makes for a file name, in an array of 128 bytes. -/
def processName (file : List UInt8) (entryPoint pid : ℕ) : List UInt8 :=
  snprintf 128 [.str file, .char 64, .str (hexToStr entryPoint), .str (ascii " [pid="),
    .str (uintToStr pid), .char 93]

def toLower (c : UInt8) : UInt8 := if 65 ≤ c ∧ c ≤ 90 then c + 32 else c

def serviceHasExtension (name ext : List UInt8) : Bool :=
  match strrchr 46 name with
  | none => false
  | some dot => dot ≠ name && dot.drop 1 ≠ [] && (dot.drop 1).map toLower = ext.map toLower

/-- An entry of the directory and what becomes of it: a file that names a program or a script to
start, and for which there is a process. -/
structure DirEntry where
  name : List UInt8
  isDir : Bool
  starts : Bool
  created : Bool
  short : name.length < 64

/-- One round of `service_manager_init` on the file names registered so far. -/
def register (names : List (List UInt8)) (e : DirEntry) : List (List UInt8) :=
  if names.length < 32 ∧ !e.isDir ∧ serviceHasExtension e.name (ascii "service") ∧ e.starts ∧
    e.created then names ++ [e.name] else names

def serviceManagerInit (entries : List DirEntry) : List (List UInt8) := entries.foldl register []

/-- The first name that `strncmp` finds at the front of `procName`, with an at sign behind it. -/
def serviceFindByProcessName (names : List (List UInt8)) (procName : List UInt8) : Option ℕ :=
  names.findIdx? fun f => (f ++ [64]).isPrefixOf procName

/-- Whatever is registered after a monitor was made, it finds its own service. -/
def MonitorsFind (names : List (List UInt8)) : Prop :=
  ∀ i (h : i < names.length) entryPoint pid later,
    serviceFindByProcessName (names.take (i + 1) ++ later) (processName names[i] entryPoint pid) =
      some i

variable {f g : List UInt8} {names : List (List UInt8)}

theorem processName_eq (g : List UInt8) (entryPoint pid : ℕ) :
    ∃ rest, (64 : UInt8) ∉ rest ∧ processName g entryPoint pid = (g ++ 64 :: rest).take 127 := by
  refine ⟨hexToStr entryPoint ++ (ascii " [pid=" ++ (uintToStr pid ++ [93])), ?_, ?_⟩
  · simp only [List.mem_append, not_or]
    exact ⟨(isLine_hexToStr entryPoint).2, by decide +kernel,
      fun h => absurd (isDigit_uintToStr h) (by decide), by decide⟩
  · simp [processName, snprintf_eq, Piece.text]

/-- Behind the file name there is no second at sign, so only a longer name is mistaken. -/
theorem matches_processName (hg : g.length < 64) (hne : f ≠ g) (entryPoint pid : ℕ) :
    f ++ [64] <+: processName g entryPoint pid ↔ f ++ [64] <+: g := by
  obtain ⟨rest, hrest, hname⟩ := processName_eq g entryPoint pid
  rw [hname]
  constructor
  · intro h
    have hall := h.trans (List.take_prefix _ _)
    rcases List.prefix_or_prefix_of_prefix hall (List.prefix_append g _) with hshort | ⟨q, hq⟩
    · exact hshort
    · rw [← hq, List.prefix_append_right_inj, List.prefix_cons_iff] at hall
      rcases hall with rfl | ⟨q, rfl, hq'⟩
      · rw [List.append_nil] at hq
        rw [hq]
      · rcases List.eq_nil_or_concat' q with rfl | ⟨q, c, rfl⟩
        · exact absurd (List.append_cancel_right hq).symm hne
        · rw [← List.cons_append, ← List.append_assoc] at hq
          obtain rfl : c = 64 := List.singleton_inj.1 (List.append_inj' hq rfl).2
          exact absurd (hq'.subset (by simp)) hrest
  · intro h
    have := h.length_le
    exact List.prefix_take_iff.2 ⟨h.trans (List.prefix_append _ _), by omega⟩

theorem find_eq_some_iff {i : ℕ} (hi : i < names.length) (s : List UInt8)
    (later : List (List UInt8)) :
    serviceFindByProcessName (names.take (i + 1) ++ later) s = some i ↔
      names[i] ++ [64] <+: s ∧ ∀ j (_ : j < i), ¬names[j] ++ [64] <+: s := by
  have hget : ∀ j (_ : j ≤ i) (h : j < (names.take (i + 1) ++ later).length),
      (names.take (i + 1) ++ later)[j] = names[j] := fun j hj h => by
    rw [List.getElem_append_left (by simp; omega), List.getElem_take]
  rw [serviceFindByProcessName, List.findIdx?_eq_some_iff_getElem]
  simp only [List.isPrefixOf_iff_prefix]
  constructor
  · rintro ⟨hlen, hown, hbefore⟩
    rw [hget i le_rfl] at hown
    exact ⟨hown, fun j hj => by rw [← hget j hj.le]; exact hbefore j hj⟩
  · rintro ⟨hown, hbefore⟩
    refine ⟨by simp; omega, ?_, fun j hj => ?_⟩
    · rwa [hget i le_rfl]
    · rw [hget j hj.le]
      exact hbefore j hj

theorem monitorsFind_iff_pairwise (hnodup : names.Nodup) (hshort : ∀ f ∈ names, f.length < 64) :
    MonitorsFind names ↔ names.Pairwise fun f g => ¬f ++ [64] <+: g := by
  have hother : ∀ i j (hi : i < names.length) (hj : j < i) entryPoint pid,
      (names[j] ++ [64] <+: processName names[i] entryPoint pid ↔ names[j] ++ [64] <+: names[i]) :=
    fun i j hi hj => matches_processName (hshort _ (List.getElem_mem hi))
      fun heq => absurd (hnodup.getElem_inj_iff.1 heq) (by omega)
  rw [List.pairwise_iff_getElem]
  constructor
  · intro h j i hj hi hji hpre
    exact ((find_eq_some_iff hi _ _).1 (h i hi 0 0 [])).2 j hji ((hother i j hi hji 0 0).2 hpre)
  · intro h i hi entryPoint pid later
    refine (find_eq_some_iff hi _ _).2 ⟨?_, fun j hji hpre => ?_⟩
    · obtain ⟨rest, -, hname⟩ := processName_eq names[i] entryPoint pid
      have := hshort _ (List.getElem_mem hi)
      rw [hname]
      exact List.prefix_take_iff.2 ⟨by simp, by simp; omega⟩
    · exact h j i (by omega) hi hji ((hother i j hi hji entryPoint pid).1 hpre)

theorem serviceManagerInit_sublist (entries : List DirEntry) :
    (serviceManagerInit entries).Sublist (entries.map DirEntry.name) := by
  induction entries using List.reverseRecOn with
  | nil => exact List.Sublist.refl _
  | append_singleton entries e ih =>
    rw [serviceManagerInit, List.foldl_concat, List.map_append, register]
    split
    · exact ih.append (List.Sublist.refl _)
    · exact ih.trans (List.sublist_append_left _ _)

/-- **When monitors find their services.** Exactly when no registered file name is, with an at sign
behind it, the beginning of one registered later. -/
theorem monitorsFind_iff (entries : List DirEntry) (h : (entries.map DirEntry.name).Nodup) :
    MonitorsFind (serviceManagerInit entries) ↔
      (serviceManagerInit entries).Pairwise fun f g => ¬f ++ ascii "@" <+: g := by
  have hsub := serviceManagerInit_sublist entries
  refine monitorsFind_iff_pairwise (hsub.nodup h) fun f hf => ?_
  obtain ⟨e, -, rfl⟩ := List.mem_map.1 (hsub.subset hf)
  exact e.short

/-- Two services whose monitors both find them. -/
theorem monitorsFind_two :
    MonitorsFind (serviceManagerInit [⟨ascii "a.service", false, true, true, by decide +kernel⟩,
      ⟨ascii "b.service", false, true, true, by decide +kernel⟩]) :=
  (monitorsFind_iff _ (by decide +kernel)).2 (by decide +kernel)

/-- The second monitor takes the first service for its own. -/
theorem atSign_not_monitorsFind :
    ¬MonitorsFind (serviceManagerInit [⟨ascii "a.service", false, true, true, by decide +kernel⟩,
      ⟨ascii "a.service@b.service", false, true, true, by decide +kernel⟩]) := by
  intro h
  have := h 1 (by decide +kernel) 0 0 []
  exact absurd this (by decide +kernel)

end MinimalOS.Services
