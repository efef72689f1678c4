import MinimalOS.Lib.Lines
import MinimalOS.Minimafs.Lengths

/-!
# What the parser makes of a header

A header is a list of tagged lines. The parser looks for each tag from the start of each line to
the end of the whole text, and the last line from which it finds the tag decides. So a field is
read back if its tag stands nowhere behind its own line: not in the names and dates that follow,
and not in the data, up to the first NUL.
-/

namespace MinimalOS.Minimafs

open CString List Option

/-! ## The lines of a header -/

def quote (s : List UInt8) : List UInt8 := 39 :: (s ++ [39])

def fieldLine (f : String × List UInt8) : List UInt8 := tagStart f.1 ++ f.2 ++ [64]

def runnableFields (m : FileMetadata) : List (String × List UInt8) :=
  if m.runnable then
    ("RUNNABLE", ascii "True") ::
      ((if m.entrypoint ≠ 0 then [("ENTRYPOINT", ascii "0x" ++ hexToStr m.entrypoint)] else []) ++
        if m.runWith ≠ [] then [("RUNWITH", m.runWith)] else [])
  else [("RUNNABLE", ascii "False")]

def headerFields (m : FileMetadata) : List (String × List UInt8) :=
  [("FILETYPE", m.filetype), ("FILEFORMAT", m.fileformat), ("FILELEN", uintToStr m.fileLength),
    ("DATALEN", uintToStr m.dataLength), ("FILENAME", quote m.filename),
    ("CREATEDDATE", quote m.createdDate), ("LASTCHANGED", quote m.lastChanged),
    ("PARENTFOLDER", quote m.parentFolder)] ++
  (runnableFields m ++ [("HIDDEN", boolText m.hidden)])

/-- The lines before `@DATA@`. -/
def headerBody (m : FileMetadata) : List (List UInt8) :=
  ascii "@HEADER@" :: (headerFields m).map fieldLine

theorem runnableText_eq (m : FileMetadata) :
    runnableText m = joinLines ((runnableFields m).map fieldLine) [] := by
  unfold runnableText runnableFields
  by_cases hrun : m.runnable = true
  · rw [if_pos hrun, if_pos hrun]
    by_cases hentry : m.entrypoint ≠ 0 <;> by_cases hwith : m.runWith ≠ [] <;>
      simp [hentry, hwith, joinLines, fieldLine, tagStart, ascii]
  · rw [if_neg hrun, if_neg hrun]
    rfl

theorem generateFileHeader_eq (m : FileMetadata) :
    generateFileHeader m = joinLines (headerBody m) dataMarker := by
  have hhidden : ascii "@HIDDEN:" ++ (boolText m.hidden ++ (ascii "@\n" ++ ascii "@DATA@\n")) =
      joinLines [fieldLine ("HIDDEN", boolText m.hidden)] dataMarker := by
    simp [joinLines, fieldLine, tagStart, ascii, dataMarker]
  unfold generateFileHeader headerBody headerFields
  simp only [append_assoc]
  rw [hhidden, runnableText_eq, ← joinLines_eq_append, ← joinLines_append, ← map_singleton]
  simp [joinLines, fieldLine, tagStart, ascii, quote]

/-! ## What may stand in a header -/

def FileMetadata.bare (m : FileMetadata) : List (List UInt8) := [m.filetype, m.fileformat, m.runWith]

def FileMetadata.quoted (m : FileMetadata) : List (List UInt8) :=
  [m.filename, m.createdDate, m.lastChanged, m.parentFolder]

abbrev IsPlain (w : List UInt8) : Prop := (0 : UInt8) ∉ w ∧ (64 : UInt8) ∉ w

/-- The texts do not break the form of a header. -/
structure FileMetadata.Printable (m : FileMetadata) : Prop where
  bare : ∀ s ∈ m.bare, IsPlain s
  quoted : ∀ s ∈ m.quoted, IsLine s ∧ (39 : UInt8) ∉ s

/-- What the name of a tag has not. -/
def IsName (s : List UInt8) : Prop := IsLine s ∧ (64 : UInt8) ∉ s ∧ (58 : UInt8) ∉ s

/-- A value without an at sign, or a quoted one. -/
def IsValue (m : FileMetadata) (w : List UInt8) : Prop :=
  IsPlain w ∨ ∃ v ∈ m.quoted, w = quote v

variable {s : List UInt8} {n maxLen size : ℕ} {β : Type}

theorem isLine_digits (h : ∀ c ∈ s, IsDigit c) : IsLine s ∧ (64 : UInt8) ∉ s :=
  ⟨⟨fun hm => absurd (h 0 hm) (by decide), fun hm => absurd (h 10 hm) (by decide)⟩,
    fun hm => absurd (h 64 hm) (by decide)⟩

variable {v : ℕ} {c : UInt8}

theorem mem_hexDigits (h : c ∈ hexDigits n v) : ∃ d < 16, c = hexDigit d := by
  induction n generalizing v with
  | zero => cases h
  | succ n ih =>
    rw [hexDigits] at h
    split_ifs at h
    · cases h
    · rcases mem_cons.mp h with rfl | h
      · exact ⟨v % 16, Nat.mod_lt _ (by decide), rfl⟩
      · exact ih h

theorem mem_hexToStr (h : c ∈ hexToStr v) : ∃ d < 16, c = hexDigit d := by
  rw [hexToStr] at h
  split_ifs at h
  · exact ⟨0, by decide, mem_singleton.mp h⟩
  · exact mem_hexDigits (mem_reverse.mp h)

theorem isLine_hexToStr (v : ℕ) : IsLine (hexToStr v) ∧ (64 : UInt8) ∉ hexToStr v := by
  have hnot : ∀ c : UInt8, (∀ d < 16, c ≠ hexDigit d) → c ∉ hexToStr v := fun c hc hm => by
    obtain ⟨d, hd, heq⟩ := mem_hexToStr hm
    exact hc d hd heq
  exact ⟨⟨hnot 0 (by decide), hnot 10 (by decide)⟩, hnot 64 (by decide)⟩

instance (s : List UInt8) : Decidable (IsName s) := inferInstanceAs (Decidable (_ ∧ _ ∧ _))

variable {m : FileMetadata} {T : String} {f : String × List UInt8} {w v tail : List UInt8}

def headerTags : List String :=
  ["FILETYPE", "FILEFORMAT", "FILELEN", "DATALEN", "FILENAME", "CREATEDDATE", "LASTCHANGED",
    "PARENTFOLDER", "RUNNABLE", "ENTRYPOINT", "RUNWITH", "HIDDEN"]

theorem isName_of_mem (hT : T ∈ headerTags) : IsName (ascii T) := by
  have hall : ∀ T ∈ headerTags, IsName (ascii T) := by decide
  exact hall T hT

theorem nodup_headerFields (m : FileMetadata) : ((headerFields m).map Prod.fst).Nodup := by
  have hsub : ((headerFields m).map Prod.fst).Sublist headerTags := by
    unfold headerFields runnableFields
    split_ifs <;> simp only [map_append, map_cons] <;> decide
  exact (show headerTags.Nodup by decide).sublist hsub

/-- The tags of the texts that are not quoted. -/
def bareTags : List String := ["FILETYPE", "FILEFORMAT", "RUNWITH"]

theorem isPlain_boolText (b : Bool) : IsPlain (boolText b) := by
  cases b <;> decide

theorem head_boolText (b : Bool) : (boolText b).head? ≠ some 39 := by
  cases b <;> decide

theorem isPlain_hex (v : ℕ) : IsPlain (ascii "0x" ++ hexToStr v) := by
  obtain ⟨hline, hat⟩ := isLine_hexToStr v
  exact ⟨fun h => (mem_append.mp h).elim (by decide) hline.1,
    fun h => (mem_append.mp h).elim (by decide) hat⟩

theorem isPlain_uintToStr (n : ℕ) : IsPlain (uintToStr n) := by
  obtain ⟨hline, hat⟩ := isLine_digits fun c (hc : c ∈ uintToStr n) => isDigit_uintToStr hc
  exact ⟨hline.1, hat⟩

theorem head_uintToStr (n : ℕ) : (uintToStr n).head? ≠ some 39 := fun h =>
  absurd (isDigit_uintToStr (mem_of_head? h)) (by decide)

theorem mem_runnableFields (hf : f ∈ runnableFields m) :
    f.1 ∈ headerTags ∧ (f.2 ∈ m.bare ∨ IsPlain f.2 ∧ f.2.head? ≠ some 39) := by
  unfold runnableFields at hf
  by_cases hrun : m.runnable = true
  · rw [if_pos hrun, mem_cons, mem_append] at hf
    rcases hf with rfl | hf | hf
    · exact ⟨by simp [headerTags], .inr ⟨isPlain_boolText true, head_boolText true⟩⟩
    · obtain ⟨-, rfl⟩ : m.entrypoint ≠ 0 ∧ f = ("ENTRYPOINT", ascii "0x" ++ hexToStr m.entrypoint) := by
        simpa using hf
      exact ⟨by simp [headerTags], .inr ⟨isPlain_hex _, nofun⟩⟩
    · obtain ⟨-, rfl⟩ : m.runWith ≠ [] ∧ f = ("RUNWITH", m.runWith) := by simpa using hf
      exact ⟨by simp [headerTags], .inl (by simp [FileMetadata.bare])⟩
  · rw [if_neg hrun, mem_singleton] at hf
    obtain rfl := hf
    exact ⟨by simp [headerTags], .inr ⟨isPlain_boolText false, head_boolText false⟩⟩

/-- What a field can be. -/
theorem mem_headerFields_cases (hf : f ∈ headerFields m) : f.1 ∈ headerTags ∧
    (f.2 ∈ m.bare ∨ IsPlain f.2 ∧ f.2.head? ≠ some 39 ∨
      f.1 ∉ bareTags ∧ ∃ v ∈ m.quoted, f.2 = quote v) := by
  rcases mem_append.mp hf with hf | hf
  · simp only [mem_cons, not_mem_nil, or_false] at hf
    rcases hf with rfl | rfl | rfl | rfl | rfl | rfl | rfl | rfl
    case inr.inr.inl | inr.inr.inr.inl =>
      exact ⟨by simp [headerTags], .inr (.inl ⟨isPlain_uintToStr _, head_uintToStr _⟩)⟩
    all_goals simp [headerTags, bareTags, FileMetadata.bare, FileMetadata.quoted]
  · rcases mem_append.mp hf with hf | hf
    · obtain ⟨hT, hv⟩ := mem_runnableFields hf
      exact ⟨hT, hv.imp_right .inl⟩
    · obtain rfl := mem_singleton.mp hf
      exact ⟨by simp [headerTags], .inr (.inl ⟨isPlain_boolText _, head_boolText _⟩)⟩

theorem mem_headerFields (hm : m.Printable) (hf : f ∈ headerFields m) :
    f.1 ∈ headerTags ∧ IsValue m f.2 := by
  obtain ⟨hT, hbare | hplain | ⟨-, hquoted⟩⟩ := mem_headerFields_cases hf
  · exact ⟨hT, .inl (hm.bare _ hbare)⟩
  · exact ⟨hT, .inl hplain.1⟩
  · exact ⟨hT, .inr hquoted⟩

theorem IsValue.noZero (hm : m.Printable) (hw : IsValue m w) : (0 : UInt8) ∉ w := by
  rcases hw with h | ⟨v, hv, rfl⟩
  · exact h.1
  · simp [quote, (hm.quoted v hv).1.1]

theorem noZero_fieldLine (hT : IsName (ascii f.1)) (hw : (0 : UInt8) ∉ f.2) :
    (0 : UInt8) ∉ fieldLine f := by
  have h := hT.1.1
  simp only [fieldLine, tagStart, ascii] at h ⊢
  simp [h, hw]

theorem noZero_of_mem_headerBody (hm : m.Printable) {l : List UInt8} (hl : l ∈ headerBody m) :
    (0 : UInt8) ∉ l := by
  rcases mem_cons.mp hl with rfl | hl
  · decide
  · obtain ⟨f, hf, rfl⟩ := mem_map.mp hl
    obtain ⟨hT, hw⟩ := mem_headerFields hm hf
    exact noZero_fieldLine (isName_of_mem hT) (hw.noZero hm)

/-! ## Where a tag stands -/

theorem fieldLine_eq (f : String × List UInt8) :
    fieldLine f = (64 :: ascii f.1) ++ 58 :: (f.2 ++ [64]) := by
  simp [fieldLine, tagStart, ascii]

theorem tagStart_eq (T : String) : tagStart T = 64 :: (ascii T ++ [58]) := by
  simp [tagStart, ascii]

theorem tail_fieldLine (f : String × List UInt8) :
    (fieldLine f).tail = ascii f.1 ++ 58 :: (f.2 ++ [64]) := by
  rw [fieldLine_eq]
  rfl

/-- Behind its first byte a line has what starts with an at sign only in its value. -/
theorem infix_tail_fieldLine_iff (hf : IsName (ascii f.1)) {c : UInt8} (hc : c ≠ 64)
    (ns : List UInt8) :
    64 :: (ns ++ [c]) <:+: (fieldLine f).tail ↔ 64 :: (ns ++ [c]) <:+: f.2 := by
  have hskip : (64 : UInt8) ∉ ascii f.1 ++ [58] := fun h =>
    (mem_append.mp h).elim hf.2.1 (by decide)
  have hlast : ¬ 64 :: (ns ++ [c]) <:+ f.2 ++ [64] := by
    rw [← reverse_prefix]
    simp [hc]
  rw [tail_fieldLine,
    show ascii f.1 ++ 58 :: (f.2 ++ [64]) = (ascii f.1 ++ [58]) ++ (f.2 ++ [64]) by simp,
    infix_append_of_head _ _ hskip, ← concat_eq_append, infix_concat_iff,
    concat_eq_append, or_iff_right hlast]

/-- A line starts with its own tag only. -/
theorem tagStart_prefix_fieldLine (hT : IsName (ascii T)) (hf : IsName (ascii f.1))
    (h : tagStart T <+: fieldLine f) : ascii T = ascii f.1 := by
  rw [tagStart_eq, fieldLine_eq, cons_append, cons_prefix_cons] at h
  obtain ⟨t, ht⟩ := (prefix_append_cons_iff hT.2.2).mp ((prefix_append _ _).trans h.2)
  cases t with
  | nil => simpa using ht
  | cons x t =>
    rw [← ht, append_assoc, prefix_append_right_inj] at h
    obtain ⟨rfl, -⟩ := cons_prefix_cons.mp h.2
    exact absurd (ht ▸ mem_append_right _ mem_cons_self) hf.2.2

theorem tagStart_infix_fieldLine_iff (hT : IsName (ascii T)) (hf : IsName (ascii f.1))
    (hne : ascii T ≠ ascii f.1) : tagStart T <:+: fieldLine f ↔ tagStart T <:+: f.2 := by
  have hcons : fieldLine f = 64 :: (fieldLine f).tail := by rw [fieldLine_eq]; rfl
  rw [hcons, infix_cons_iff, ← hcons,
    or_iff_right fun h => hne (tagStart_prefix_fieldLine hT hf h), tagStart_eq,
    infix_tail_fieldLine_iff hf (by decide)]

theorem tagStart_infix_value (hquote : (39 : UInt8) ∉ ascii T)
    (hw : IsValue m w) (h : tagStart T <:+: w) : ∃ v ∈ m.quoted, tagStart T <:+: v := by
  have hnot : (39 : UInt8) ∉ tagStart T := by
    rw [tagStart_eq]
    simp [hquote]
  rcases hw with ⟨-, hat⟩ | ⟨v, hv, rfl⟩
  · exact absurd (h.subset (by rw [tagStart_eq]; exact mem_cons_self)) hat
  · refine ⟨v, hv, ?_⟩
    have hsplit : quote v = [] ++ 39 :: (v ++ 39 :: []) := rfl
    rw [hsplit, infix_append_cons_iff hnot, infix_append_cons_iff hnot] at h
    simpa [tagStart_eq] using h

/-- The tag stands in no quoted text and not in what follows the header. -/
def Clear (T : String) (m : FileMetadata) (tail : List UInt8) : Prop :=
  (∀ v ∈ m.quoted, ¬ tagStart T <:+: v) ∧ ¬ tagStart T <:+: cstr tail

section Fold

variable (hm : m.Printable)

include hm

/-- Only a value that is not quoted can have a newline. -/
theorem fieldLine_newline (hf : f ∈ headerFields m) {k t : List UInt8}
    (h : fieldLine f = k ++ 10 :: t) : (64 : UInt8) ∉ f.2 ∧ t <:+ f.2 ++ [64] := by
  obtain ⟨hT, hw⟩ := mem_headerFields hm hf
  have hname : (10 : UInt8) ∉ tagStart f.1 := by
    rw [tagStart_eq]
    simp [(isName_of_mem hT).1.2]
  have hline : fieldLine f = tagStart f.1 ++ (f.2 ++ [64]) := append_assoc _ _ _
  have hsplit : (10 : UInt8) ∈ f.2 ++ [64] ∧ t <:+ f.2 ++ [64] := by
    rcases append_eq_append_iff.mp (hline.symm.trans h) with ⟨c, -, hc⟩ | ⟨c, hc, ht⟩
    · exact ⟨hc ▸ by simp, c ++ [10], by simp [hc]⟩
    · cases c with
      | nil => exact ⟨ht ▸ mem_cons_self, [10], by simpa using ht⟩
      | cons x c =>
        obtain ⟨rfl, -⟩ := List.cons.inj ht
        exact absurd (hc ▸ mem_append_right _ mem_cons_self) hname
  rcases hw with hw | ⟨v, hv, hquote⟩
  · exact ⟨hw.2, hsplit.2⟩
  · have hnew := hsplit.1
    rw [hquote] at hnew
    simp [quote, (hm.quoted v hv).1.2] at hnew

/-- The loop over the lines stops at the marker, not before it. -/
theorem headerLines_eq {S : List (List UInt8)}
    (hS : lineStarts (generateFileHeader m ++ tail) = S ++ lineStarts (dataMarker ++ tail))
    (hs : ∀ s ∈ S, ∃ t l rest, l ∈ headerBody m ∧ (t = l ∨ ∃ k, l = k ++ 10 :: t) ∧
      s = t ++ 10 :: rest) : headerLines (generateFileHeader m ++ tail) = S := by
  have hmarker : dataMarker ++ tail = ascii "@DATA@" ++ 10 :: tail := rfl
  rw [headerLines, hS, hmarker, lineStarts_line _ (by decide) (by decide),
    takeWhile_append_of_pos, takeWhile_cons_of_neg, append_nil]
  · simp
  · intro s hmem
    obtain ⟨t, l, rest, hl, ht, rfl⟩ := hs s hmem
    rw [decide_eq_true_iff, Bool.not_eq_true, ← Bool.not_eq_true, isPrefixOf_iff_prefix,
      prefix_append_cons_iff (by decide)]
    intro hdata
    rcases mem_cons.mp hl with rfl | hl
    · rcases ht with rfl | ⟨k, hk⟩
      · exact absurd hdata (by decide)
      · exact absurd (hk ▸ by simp : (10 : UInt8) ∈ ascii "@HEADER@") (by decide)
    obtain ⟨f, hf, rfl⟩ := mem_map.mp hl
    rcases ht with rfl | ⟨k, hk⟩
    · rw [fieldLine_eq, prefix_append_cons_iff (by decide)] at hdata
      exact (isName_of_mem (mem_headerFields hm hf).1).2.1
        ((cons_prefix_cons.mp hdata).2.subset (by decide))
    · obtain ⟨hat, hsuffix⟩ := fieldLine_newline hm hf hk
      have hinfix : (64 : UInt8) :: ascii "DATA@" <:+: f.2 ++ [64] :=
        hdata.isInfix.trans hsuffix.isInfix
      rw [infix_append_of_head _ _ hat] at hinfix
      exact absurd hinfix.length_le (by decide)

/-- A line without the tag: that of another field, or the rest of a line behind a newline. -/
def Untagged (T : String) (m : FileMetadata) (t : List UInt8) : Prop :=
  t = ascii "@HEADER@" ∨ ∃ f ∈ headerFields m, t = fieldLine f ∧ f.1 ≠ T ∨
    ∃ k, fieldLine f = k ++ 10 :: t

theorem Untagged.no_tag (hT : T ∈ headerTags) (hclear : Clear T m tail) {t : List UInt8}
    (h : Untagged T m t) : (0 : UInt8) ∉ t ∧ ¬ tagStart T <:+: t := by
  have hname := isName_of_mem hT
  have hquote : (39 : UInt8) ∉ ascii T := by
    have hall : ∀ T ∈ headerTags, (39 : UInt8) ∉ ascii T := by decide
    exact hall T hT
  have hinj : ∀ S ∈ headerTags, S ≠ T → ascii T ≠ ascii S := by
    have hall : ∀ T ∈ headerTags, ∀ S ∈ headerTags, S ≠ T → ascii T ≠ ascii S := by decide
    exact hall T hT
  rcases h with rfl | ⟨f, hf, ⟨rfl, hne⟩ | ⟨k, hk⟩⟩
  · exact ⟨by decide, fun h => absurd (h.subset (by rw [tagStart_eq]; simp) : (58 : UInt8) ∈ _)
      (by decide)⟩
  · obtain ⟨hS, hw⟩ := mem_headerFields hm hf
    refine ⟨noZero_fieldLine (isName_of_mem hS) (hw.noZero hm), fun h => ?_⟩
    rw [tagStart_infix_fieldLine_iff hname (isName_of_mem hS) (hinj f.1 hS hne)] at h
    obtain ⟨v, hv, hin⟩ := tagStart_infix_value hquote hw h
    exact hclear.1 v hv hin
  · obtain ⟨hS, hw⟩ := mem_headerFields hm hf
    obtain ⟨hat, hsuffix⟩ := fieldLine_newline hm hf hk
    refine ⟨fun h => noZero_fieldLine (isName_of_mem hS) (hw.noZero hm) (hk ▸ by simp [h]),
      fun h => ?_⟩
    have hinfix := h.trans hsuffix.isInfix
    rw [tagStart_eq, infix_append_of_head _ _ hat] at hinfix
    have := hinfix.length_le
    simp at this

theorem strstr_tag_eq_none {ls : List (List UInt8)} (hT : T ∈ headerTags)
    (hls : ∀ l ∈ ls, Untagged T m l) (hclear : Clear T m tail) :
    strstr (tagStart T) (joinLines ls (dataMarker ++ tail)) = none := by
  have htag : IsLine (tagStart T) :=
    (show IsLine [64] by decide).append ((isName_of_mem hT).1.append (by decide))
  refine strstr_joinLines_eq_none (by rw [tagStart_eq]; exact cons_ne_nil _ _) htag.1 htag.2
    (fun l hl => (hls l hl).no_tag hm hT hclear) ?_
  have hmarker : cstr (dataMarker ++ tail) = ascii "@DATA@" ++ 10 :: cstr tail :=
    cstr_append tail (by decide)
  rw [hmarker, infix_append_cons_iff htag.2]
  refine not_or.mpr ⟨fun h => ?_, hclear.2⟩
  exact absurd (h.subset (by rw [tagStart_eq]; simp) : (58 : UInt8) ∈ _) (by decide)

/-- The pointers of the loop up to some line of the header, and those from there on. -/
theorem exists_headerLines {A B : List (List UInt8)} (hbody : headerBody m = A ++ B)
    (tail : List UInt8) : ∃ S S', headerLines (generateFileHeader m ++ tail) = S ++ S' ∧
      (A = [] → S = []) ∧ (B ≠ [] → joinLines B (dataMarker ++ tail) ∈ S') ∧ ∀ s ∈ S', ∃ t l ms, l :: ms <:+ B ∧ (t = l ∨ ∃ k, l = k ++ 10 :: t) ∧
        s = joinLines (t :: ms) (dataMarker ++ tail) := by
  have hzero : ∀ l ∈ headerBody m, (0 : UInt8) ∉ l := fun l => noZero_of_mem_headerBody hm
  rw [hbody] at hzero
  obtain ⟨S, hS, -, hs⟩ := exists_lineStarts_joinLines
    (fun l hl => hzero l (mem_append_left _ hl)) (joinLines B (dataMarker ++ tail))
  obtain ⟨S', hS', hfirst, hs'⟩ := exists_lineStarts_joinLines
    (fun l hl => hzero l (mem_append_right _ hl)) (dataMarker ++ tail)
  refine ⟨S, S', headerLines_eq hm ?_ ?_, ?_, hfirst, hs'⟩
  · rw [generateFileHeader_eq, joinLines_eq_append, append_assoc, ← joinLines_eq_append, hbody,
      joinLines_append, hS, hS', append_assoc]
  · rw [hbody, forall_mem_append]
    refine ⟨fun s h => ?_, fun s h => ?_⟩
    · obtain ⟨t, l, ms, hms, ht, rfl⟩ := hs s h
      exact ⟨t, l, _, mem_append_left _ (hms.subset mem_cons_self), ht, rfl⟩
    · obtain ⟨t, l, ms, hms, ht, rfl⟩ := hs' s h
      exact ⟨t, l, _, mem_append_right _ (hms.subset mem_cons_self), ht, rfl⟩
  · rintro rfl
    exact self_eq_append_left.mp hS

variable {g : β → List UInt8 → β}

/-- **The last line with a tag decides.** -/
theorem foldl_headerLines {x : β} (init : β) (hmem : (T, w) ∈ headerFields m)
    (hclear : Clear T m tail) (hset : ∀ old rest, g old (fieldLine (T, w) ++ 10 :: rest) = x)
    (hkeep : ∀ line, strstr (tagStart T) line = none → g x line = x) :
    (headerLines (generateFileHeader m ++ tail)).foldl g init = x := by
  obtain ⟨before, after, hfields⟩ := append_of_mem hmem
  have hT := (mem_headerFields hm hmem).1
  have huntagged : ∀ l ∈ after.map fieldLine, Untagged T m l := by
    have hnodup := nodup_headerFields m
    rw [hfields, map_append, map_cons, nodup_append, nodup_cons] at hnodup
    intro l hl
    obtain ⟨f, hf, rfl⟩ := mem_map.mp hl
    refine .inr ⟨f, by rw [hfields]; exact mem_append_right _ (mem_cons_of_mem _ hf), .inl ⟨rfl, ?_⟩⟩
    rintro rfl
    exact hnodup.2.1.1 (mem_map.mpr ⟨f, hf, rfl⟩)
  have hbody : headerBody m = (ascii "@HEADER@" :: before.map fieldLine) ++
      fieldLine (T, w) :: after.map fieldLine := by
    rw [headerBody, hfields, map_append]
    rfl
  obtain ⟨S, S', hlines, -, hfirst, hs⟩ := exists_headerLines hm hbody tail
  have hstay : ∀ s ∈ S', g x s = x := by
    intro s h
    obtain ⟨t, l, ms, hms, ht, rfl⟩ := hs s h
    rcases suffix_cons_iff.mp hms with hms | hms
    · obtain ⟨rfl, rfl⟩ := List.cons.inj hms
      rcases ht with rfl | hnew
      · exact hset x _
      · refine hkeep _ (strstr_tag_eq_none hm hT ?_ hclear)
        exact forall_mem_cons.mpr ⟨.inr ⟨_, hmem, .inr hnew⟩, huntagged⟩
    · refine hkeep _ (strstr_tag_eq_none hm hT ?_ hclear)
      rw [forall_mem_cons]
      refine ⟨?_, fun l hl => huntagged l (hms.subset (mem_cons_of_mem _ hl))⟩
      rcases ht with rfl | hnew
      · exact huntagged t (hms.subset mem_cons_self)
      · obtain ⟨f, hf, rfl⟩ := mem_map.mp (hms.subset mem_cons_self)
        refine .inr ⟨f, ?_, .inr hnew⟩
        rw [hfields]
        exact mem_append_right _ (mem_cons_of_mem _ hf)
  obtain ⟨S₁, S₂, rfl⟩ := append_of_mem (hfirst (cons_ne_nil _ _))
  rw [hlines, ← append_assoc]
  exact foldl_last init (fun old => hset old _) fun s h =>
    hstay s (mem_append_right _ (mem_cons_of_mem _ h))

theorem foldl_headerLines_absent (init : β) (hT : T ∈ headerTags)
    (hne : ∀ f ∈ headerFields m, f.1 ≠ T) (hclear : Clear T m tail)
    (hkeep : ∀ line, strstr (tagStart T) line = none → g init line = init) :
    (headerLines (generateFileHeader m ++ tail)).foldl g init = init := by
  have huntagged : ∀ l ∈ headerBody m, ∀ t, (t = l ∨ ∃ k, l = k ++ 10 :: t) → Untagged T m t := by
    intro l hl t ht
    rcases mem_cons.mp hl with rfl | hl
    · rcases ht with rfl | ⟨k, hk⟩
      · exact .inl rfl
      · exact absurd (hk ▸ by simp : (10 : UInt8) ∈ ascii "@HEADER@") (by decide)
    · obtain ⟨f, hf, rfl⟩ := mem_map.mp hl
      exact .inr ⟨f, hf, ht.imp_left fun h => ⟨h, hne f hf⟩⟩
  obtain ⟨S, S', hlines, hnil, -, hs⟩ := exists_headerLines (A := []) hm rfl tail
  rw [hlines, hnil rfl, nil_append]
  refine foldl_keep fun s h => ?_
  obtain ⟨t, l, ms, hms, ht, rfl⟩ := hs s h
  refine hkeep _ (strstr_tag_eq_none hm hT (forall_mem_cons.mpr ⟨?_, fun k hk => ?_⟩) hclear)
  · exact huntagged l (hms.subset mem_cons_self) t ht
  · exact huntagged k (hms.subset (mem_cons_of_mem _ hk)) k (.inl rfl)

end Fold

/-! ## Values -/

theorem trimEnd_eq_self (h : ∀ c ∈ s.getLast?, c ≠ 32 ∧ c ≠ 9) : trimEnd s = s := by
  rcases eq_nil_or_concat s with rfl | ⟨s, c, rfl⟩
  · rfl
  · have hc := h c (by simp)
    rw [trimEnd, concat_eq_append, reverse_append, reverse_singleton,
      singleton_append, dropWhile_cons_of_neg (by simp [hc]), reverse_cons,
      reverse_reverse]

theorem cutAt_append (a b : List UInt8) (h : a.length < maxLen) : cutAt (a ++ b) b maxLen = a := by
  rw [cutAt, length_append, Nat.add_sub_cancel, if_neg (not_le.mpr h), take_left']
  rfl

theorem parseValue_bare (hzero : (0 : UInt8) ∉ v) (hat : (64 : UInt8) ∉ v)
    (hhead : v.head? ≠ some 39) (hlen : v.length < maxLen) (rest : List UInt8) :
    parseValue (v ++ 64 :: rest) maxLen = some (trimEnd v) := by
  have hfirst : (v ++ 64 :: rest).head? ≠ some 39 := by
    cases v with
    | nil => simp
    | cons x v => simpa using hhead
  rw [parseValue, if_neg hfirst, strchr_append _ hzero hat (by decide), map_some,
    cutAt_append v (64 :: rest) hlen]

theorem parseValue_quote (hzero : (0 : UInt8) ∉ v) (hquote : (39 : UInt8) ∉ v)
    (hlen : v.length < maxLen) (rest : List UInt8) :
    parseValue (quote v ++ 64 :: rest) maxLen = some v := by
  have htext : quote v ++ 64 :: rest = 39 :: (v ++ 39 :: 64 :: rest) := by simp [quote]
  rw [htext, parseValue, if_pos (by rfl), tail_cons, strchr_append _ hzero hquote (by decide),
    map_some, cutAt_append v (39 :: 64 :: rest) hlen]

/-- A line's tag is found at its start. -/
theorem strstr_tagStart (T : String) (w rest : List UInt8) :
    strstr (tagStart T) (fieldLine (T, w) ++ 10 :: rest) =
      some (tagStart T ++ (w ++ 64 :: 10 :: rest)) := by
  rw [show fieldLine (T, w) ++ 10 :: rest = tagStart T ++ (w ++ 64 :: 10 :: rest) by
    simp [fieldLine]]
  exact strstr_here (by simp [tagStart_eq]) (by simp [tagStart_eq]) (prefix_append _ _)

theorem parseTag_fieldLine (T : String) (w rest : List UInt8) (maxLen : ℕ) :
    parseTag (fieldLine (T, w) ++ 10 :: rest) T maxLen = parseValue (w ++ 64 :: 10 :: rest) maxLen := by
  rw [parseTag, strstr_tagStart, bind_some, drop_left]

theorem strstr_fieldLine (T : String) (w rest : List UInt8) :
    (strstr (tagStart T) (fieldLine (T, w) ++ 10 :: rest)).isSome = true := by
  rw [strstr_tagStart]
  rfl

theorem parseNumber_uintToStr (h : n < 2 ^ 64) : parseNumber (uintToStr n) = n := by
  have hdigit : ∀ c ∈ uintToStr n, IsDigit c := fun c hc => isDigit_uintToStr hc
  have hhex : ¬ ((uintToStr n).head? = some 48 ∧
      ((uintToStr n)[1]? = some 120 ∨ (uintToStr n)[1]? = some 88)) := by
    rintro ⟨-, hx | hx⟩ <;> exact absurd (hdigit _ (mem_of_getElem? hx)) (by decide)
  have hvalue := decimalValue_uintToStr (h.trans (by decide))
  rw [parseNumber, if_neg hhex, filter_eq_self.mpr fun c hc => decide_eq_true (hdigit c hc)]
  refine (foldl_mod_decimal (2 ^ 64) (uintToStr n) 0).trans ?_
  rw [decimalValue] at hvalue
  rw [hvalue, Nat.mod_eq_of_lt h]

theorem hexStep_hexDigit {d : ℕ} (hd : d < 16) (r : ℕ) :
    hexStep r (hexDigit d) = (r * 16 % 2 ^ 64 + d) % 2 ^ 64 := by
  interval_cases d <;> rfl

theorem foldl_hexStep_hexDigits {v : ℕ} (hn : n ≤ 16) (h : v < 16 ^ n) :
    (hexDigits n v).reverse.foldl hexStep 0 = v := by
  induction n generalizing v with
  | zero =>
    rw [pow_zero, Nat.lt_one_iff] at h
    rw [h]
    rfl
  | succ n ih =>
    rw [hexDigits]
    split_ifs with hv
    · rw [hv]
      rfl
    · have hbound : v < 2 ^ 64 := h.trans_le (calc
        16 ^ (n + 1) ≤ 16 ^ 16 := Nat.pow_le_pow_right (by decide) hn
        _ = 2 ^ 64 := by decide)
      rw [reverse_cons, foldl_append, ih (by omega) (by omega), foldl_cons,
        foldl_nil, hexStep_hexDigit (Nat.mod_lt _ (by decide))]
      omega

theorem length_hexDigits_le (n v : ℕ) : (hexDigits n v).length ≤ n := by
  induction n generalizing v with
  | zero => exact le_rfl
  | succ n ih =>
    rw [hexDigits]
    split_ifs
    · exact Nat.zero_le _
    · exact Nat.succ_le_succ (ih _)

theorem length_hexToStr_le (v : ℕ) : (hexToStr v).length ≤ 16 := by
  rw [hexToStr]
  split_ifs
  · decide
  · rw [length_reverse]
    exact length_hexDigits_le 16 v

theorem parseNumber_hexToStr (h : n < 2 ^ 64) : parseNumber (ascii "0x" ++ hexToStr n) = n := by
  have hhex : (ascii "0x" ++ hexToStr n).head? = some 48 ∧
      ((ascii "0x" ++ hexToStr n)[1]? = some 120 ∨ (ascii "0x" ++ hexToStr n)[1]? = some 88) :=
    ⟨rfl, .inl rfl⟩
  show (hexToStr n).foldl hexStep 0 = n
  rw [hexToStr]
  split_ifs with hn
  · rw [hn]
    rfl
  · exact foldl_hexStep_hexDigits le_rfl h

/-! ## Fields -/

section Fields

variable (rest line : List UInt8) (T : String)

theorem readNumber_of_none {line : List UInt8} (h : strstr (tagStart T) line = none) (old : ℕ) :
    readNumber line T old = old := by
  rw [readNumber, h]
  rfl

theorem readFlag_of_none {line : List UInt8} (h : strstr (tagStart T) line = none) (old : Bool) :
    readFlag line T old = old := by
  rw [readFlag, h]
  rfl

theorem readText_of_none {line : List UInt8} (h : strstr (tagStart T) line = none) (size : ℕ)
    (old : List UInt8) : readText line T size old = old := by
  rw [readText, parseTag, h]
  rfl

section

variable (hzero : (0 : UInt8) ∉ v) (hat : (64 : UInt8) ∉ v) (hhead : v.head? ≠ some 39)
  (hlast : ∀ c ∈ v.getLast?, c ≠ 32 ∧ c ≠ 9)

include hzero hat hhead hlast

theorem readNumber_fieldLine (hlen : v.length < 32) (old : ℕ) :
    readNumber (fieldLine (T, v) ++ 10 :: rest) T old = parseNumber v := by
  rw [readNumber, if_pos (strstr_fieldLine T v rest), parseTagUint64, parseTag_fieldLine,
    parseValue_bare hzero hat hhead hlen, trimEnd_eq_self hlast]

theorem readText_bare (hlen : v.length < size) (old : List UInt8) :
    readText (fieldLine (T, v) ++ 10 :: rest) T size old = v := by
  rw [readText, parseTag_fieldLine, parseValue_bare hzero hat hhead hlen, trimEnd_eq_self hlast,
    getD_some]

end

theorem readText_quote (hzero : (0 : UInt8) ∉ v) (hquote : (39 : UInt8) ∉ v)
    (hlen : v.length < size) (old : List UInt8) :
    readText (fieldLine (T, quote v) ++ 10 :: rest) T size old = v := by
  rw [readText, parseTag_fieldLine, parseValue_quote hzero hquote hlen, getD_some]

theorem readFlag_boolText (b old : Bool) :
    readFlag (fieldLine (T, boolText b) ++ 10 :: rest) T old = b := by
  rw [readFlag, if_pos (strstr_fieldLine T _ rest), parseTagBool, parseTag_fieldLine]
  cases b
  · rw [parseValue_bare (by decide) (by decide) (by decide) (by decide)]
    rfl
  · rw [parseValue_bare (by decide) (by decide) (by decide) (by decide)]
    rfl

theorem readNumber_uintToStr (h : n < 2 ^ 64) (old : ℕ) :
    readNumber (fieldLine (T, uintToStr n) ++ 10 :: rest) T old = n := by
  have hdigit : ∀ c ∈ uintToStr n, IsDigit c := fun c hc => isDigit_uintToStr hc
  obtain ⟨hline, hat⟩ := isLine_digits hdigit
  have hlen : (uintToStr n).length ≤ 20 := length_uintToStr_le (by decide) (h.trans (by decide))
  rw [readNumber_fieldLine rest T hline.1 hat ?_ ?_ (by omega), parseNumber_uintToStr h]
  · intro hq
    exact absurd (hdigit _ (mem_of_head? hq)) (by decide)
  · intro c hc
    have hd := hdigit c (mem_of_getLast? hc)
    constructor
    · rintro rfl
      exact absurd hd (by decide)
    · rintro rfl
      exact absurd hd (by decide)

theorem readNumber_hexToStr (h : n < 2 ^ 64) (old : ℕ) :
    readNumber (fieldLine (T, ascii "0x" ++ hexToStr n) ++ 10 :: rest) T old = n := by
  obtain ⟨hline, hat⟩ := isLine_hexToStr n
  have hlen := length_hexToStr_le n
  rw [readNumber_fieldLine rest T ?_ ?_ (by exact nofun) ?_ ?_, parseNumber_hexToStr h]
  · exact fun hm => (mem_append.mp hm).elim (by decide) hline.1
  · exact fun hm => (mem_append.mp hm).elim (by decide) hat
  · intro c hc
    have hdigit : ∀ d < 16, hexDigit d ≠ 32 ∧ hexDigit d ≠ 9 := by decide
    rcases mem_append.mp (mem_of_getLast? hc) with hc | hc
    · have hall : ∀ c ∈ ascii "0x", c ≠ 32 ∧ c ≠ 9 := by decide +kernel
      exact hall c hc
    · obtain ⟨d, hd, rfl⟩ := mem_hexToStr hc
      exact hdigit d hd
  · rw [length_append]
    have : (ascii "0x").length = 2 := rfl
    omega

end Fields

/-! ## The whole header -/

/-- What the parser reads from a header with `tail` behind it. -/
def parsed (m : FileMetadata) (tail : List UInt8) : FileMetadata :=
  (headerLines (generateFileHeader m ++ tail)).foldl parseHeaderLine {}

theorem parseFileHeader_generate (m : FileMetadata) (tail : List UInt8) :
    parseFileHeader (generateFileHeader m ++ tail) = some (parsed m tail) := by
  have hstart : (ascii "@HEADER@").isPrefixOf (generateFileHeader m ++ tail) = true := by
    rw [generateFileHeader_eq, headerBody, joinLines, isPrefixOf_iff_prefix]
    exact prefix_append _ _
  rw [parseFileHeader, if_pos hstart]
  rfl

theorem parsed_field (π : FileMetadata → β) (g : β → List UInt8 → β)
    (h : ∀ m line, π (parseHeaderLine m line) = g (π m) line) :
    π (parsed m tail) = (headerLines (generateFileHeader m ++ tail)).foldl g (π {}) :=
  (foldl_hom π fun m line => (h m line).symm).symm

theorem parsed_number (hm : m.Printable) (π : FileMetadata → ℕ) (hlen : π m < 2 ^ 32)
    (hclear : Clear T m tail) (hmem : (T, uintToStr (π m)) ∈ headerFields m)
    (hstep : ∀ m line, π (parseHeaderLine m line) = u32 (readNumber line T (π m))) :
    π (parsed m tail) = π m := by
  rw [parsed_field π (fun old line => u32 (readNumber line T old)) hstep]
  refine foldl_headerLines hm _ hmem hclear (fun old rest => ?_) fun line hnone => ?_
  · rw [readNumber_uintToStr _ _ (by omega), u32_eq_self hlen]
  · rw [readNumber_of_none _ hnone, u32_eq_self hlen]

/-- **The length of the data** is read back, if its tag stands nowhere else. -/
theorem parsed_dataLength (hm : m.Printable) (hlen : m.dataLength < 2 ^ 32)
    (hclear : Clear "DATALEN" m tail) : (parsed m tail).dataLength = m.dataLength :=
  parsed_number hm FileMetadata.dataLength hlen hclear (by simp [headerFields]) fun _ _ => rfl

/-- A text that is read back from between a colon and an at sign. -/
structure Bare (s : List UInt8) : Prop where
  noAt : (64 : UInt8) ∉ s
  head : s.head? ≠ some 39
  last : ∀ c ∈ s.getLast?, c ≠ 32 ∧ c ≠ 9

/-- The texts and numbers fit what the parser has for them. -/
structure FileMetadata.Fits (m : FileMetadata) : Prop where
  filetype : m.filetype.length < 64
  fileformat : m.fileformat.length < 16
  runWith : m.runWith.length < maxPath
  filename : m.filename.length < maxFilename
  createdDate : m.createdDate.length < 32
  lastChanged : m.lastChanged.length < 32
  parentFolder : m.parentFolder.length < maxPath
  fileLength : m.fileLength < 2 ^ 32
  dataLength : m.dataLength < 2 ^ 32
  entrypoint : m.entrypoint < 2 ^ 64

section Whole

variable (hm : m.Printable) (hfits : m.Fits) (hbare : ∀ s ∈ m.bare, Bare s)
  (hclear : ∀ T ∈ headerTags, Clear T m tail)

include hm hclear

theorem parsed_bare (π : FileMetadata → List UInt8) (hT : T ∈ headerTags)
    (hmem : (T, π m) ∈ headerFields m) (hin : π m ∈ m.bare) (hb : Bare (π m))
    (hsize : (π m).length < size)
    (hstep : ∀ m line, π (parseHeaderLine m line) = readText line T size (π m)) :
    π (parsed m tail) = π m := by
  rw [parsed_field π (fun old line => readText line T size old) hstep]
  exact foldl_headerLines hm _ hmem (hclear T hT)
    (fun old rest => readText_bare rest T (hm.bare _ hin).1 hb.noAt hb.head hb.last hsize old)
    fun line hnone => readText_of_none T hnone size _

theorem parsed_quoted (π : FileMetadata → List UInt8) (hT : T ∈ headerTags)
    (hmem : (T, quote (π m)) ∈ headerFields m) (hquoted : π m ∈ m.quoted)
    (hsize : (π m).length < size)
    (hstep : ∀ m line, π (parseHeaderLine m line) = readText line T size (π m)) :
    π (parsed m tail) = π m := by
  obtain ⟨hline, hq⟩ := hm.quoted _ hquoted
  rw [parsed_field π (fun old line => readText line T size old) hstep]
  exact foldl_headerLines hm _ hmem (hclear T hT)
    (fun old rest => readText_quote rest T hline.1 hq hsize old)
    fun line hnone => readText_of_none T hnone size _

theorem parsed_flag (π : FileMetadata → Bool) (hT : T ∈ headerTags)
    (hmem : (T, boolText (π m)) ∈ headerFields m)
    (hstep : ∀ m line, π (parseHeaderLine m line) = readFlag line T (π m)) :
    π (parsed m tail) = π m := by
  rw [parsed_field π (fun old line => readFlag line T old) hstep]
  exact foldl_headerLines hm _ hmem (hclear T hT)
    (fun old rest => readFlag_boolText rest T (π m) old)
    fun line hnone => readFlag_of_none T hnone _

/-- A field that only a runnable file writes, and only if it is not empty. -/
theorem parsed_optional (π : FileMetadata → β) (g : β → List UInt8 → β) (hT : T ∈ headerTags)
    (hstep : ∀ m line, π (parseHeaderLine m line) = g (π m) line)
    (hmem : ∀ v, (T, v) ∈ headerFields m ↔ (m.runnable ∧ π m ≠ π {}) ∧ v = w)
    (hset : ∀ old rest, g old (fieldLine (T, w) ++ 10 :: rest) = π m)
    (hkeep : ∀ old line, strstr (tagStart T) line = none → g old line = old) :
    π (parsed m tail) = if m.runnable then π m else π {} := by
  rw [parsed_field π g hstep]
  by_cases hthere : m.runnable = true ∧ π m ≠ π {}
  · rw [if_pos hthere.1]
    exact foldl_headerLines hm _ ((hmem w).mpr ⟨hthere, rfl⟩) (hclear T hT) hset (hkeep _)
  · have hnone : (if m.runnable then π m else π {}) = π {} := by
      split_ifs with hrun
      · exact not_not.mp fun h => hthere ⟨hrun, h⟩
      · rfl
    rw [hnone]
    refine foldl_headerLines_absent hm _ hT ?_ (hclear T hT) (hkeep _)
    rintro ⟨S, v⟩ hf rfl
    exact hthere ((hmem v).mp hf).1

theorem parsed_entrypoint (hentry : m.entrypoint < 2 ^ 64) :
    (parsed m tail).entrypoint = if m.runnable then m.entrypoint else 0 :=
  parsed_optional hm hclear FileMetadata.entrypoint
    (fun old line => readNumber line "ENTRYPOINT" old) (by decide) (fun _ _ => rfl)
    (fun v => by by_cases h : m.runnable <;> simp [headerFields, runnableFields, h])
    (fun old rest => readNumber_hexToStr rest _ hentry old)
    fun old line hnone => readNumber_of_none _ hnone old

theorem parsed_runWith (hb : Bare m.runWith) (hsize : m.runWith.length < maxPath) :
    (parsed m tail).runWith = if m.runnable then m.runWith else [] := by
  have hzero := (hm.bare m.runWith (by simp [FileMetadata.bare])).1
  exact parsed_optional hm hclear FileMetadata.runWith
    (fun old line => readText line "RUNWITH" maxPath old) (by decide) (fun _ _ => rfl)
    (fun v => by by_cases h : m.runnable <;> simp [headerFields, runnableFields, h])
    (fun old rest => readText_bare rest _ hzero hb.noAt hb.head hb.last hsize old)
    fun old line hnone => readText_of_none _ hnone _ old

include hfits hbare

/-- **A header is read back**, but for the fields that only a runnable file writes. -/
theorem parsed_eq : parsed m tail = { m with
    entrypoint := if m.runnable then m.entrypoint else 0
    runWith := if m.runnable then m.runWith else []
    blockOffset := 0
    blockCount := 0 } := by
  have hin : ∀ s ∈ [m.filetype, m.fileformat, m.runWith], s ∈ m.bare := fun _ h => h
  have hquoted : ∀ s ∈ [m.filename, m.createdDate, m.lastChanged, m.parentFolder], s ∈ m.quoted :=
    fun _ h => h
  have hblock : (parsed m tail).blockOffset = 0 ∧ (parsed m tail).blockCount = 0 := by
    constructor
    · rw [parsed_field FileMetadata.blockOffset (fun old _ => old) fun _ _ => rfl]
      exact foldl_fixed _
    · rw [parsed_field FileMetadata.blockCount (fun old _ => old) fun _ _ => rfl]
      exact foldl_fixed _
  have hrunnable : ("RUNNABLE", boolText m.runnable) ∈ headerFields m := by
    cases hrun : m.runnable <;> simp [headerFields, runnableFields, hrun, boolText]
  have htype := parsed_bare hm hclear FileMetadata.filetype (by decide)
    (by simp [headerFields]) (hin _ (by simp)) (hbare _ (hin _ (by simp))) hfits.filetype
    fun _ _ => rfl
  have hformat := parsed_bare hm hclear FileMetadata.fileformat (by decide)
    (by simp [headerFields]) (hin _ (by simp)) (hbare _ (hin _ (by simp))) hfits.fileformat
    fun _ _ => rfl
  have hname := parsed_quoted hm hclear FileMetadata.filename (by decide)
    (by simp [headerFields]) (hquoted _ (by simp)) hfits.filename fun _ _ => rfl
  have hcreated := parsed_quoted hm hclear FileMetadata.createdDate (by decide)
    (by simp [headerFields]) (hquoted _ (by simp)) hfits.createdDate fun _ _ => rfl
  have hchanged := parsed_quoted hm hclear FileMetadata.lastChanged (by decide)
    (by simp [headerFields]) (hquoted _ (by simp)) hfits.lastChanged fun _ _ => rfl
  have hfolder := parsed_quoted hm hclear FileMetadata.parentFolder (by decide)
    (by simp [headerFields]) (hquoted _ (by simp)) hfits.parentFolder fun _ _ => rfl
  have hrun := parsed_flag hm hclear FileMetadata.runnable (by decide) hrunnable
    fun _ _ => rfl
  have hhidden := parsed_flag hm hclear FileMetadata.hidden (by decide)
    (by simp [headerFields]) fun _ _ => rfl
  have hlength := parsed_number hm FileMetadata.fileLength hfits.fileLength
    (hclear "FILELEN" (by decide)) (by simp [headerFields]) fun _ _ => rfl
  have hdata := parsed_dataLength hm hfits.dataLength (hclear "DATALEN" (by decide))
  have hentry := parsed_entrypoint hm hclear hfits.entrypoint
  have hwith := parsed_runWith hm hclear (hbare _ (hin _ (by simp))) hfits.runWith
  exact FileMetadata.ext hname htype hformat hlength hdata hcreated hchanged hfolder hrun hentry
    hwith hhidden hblock.1 hblock.2

end Whole

/-! ## Which texts can be read back -/

theorem trimEnd_prefix_self (s : List UInt8) : trimEnd s <+: s := by
  rw [trimEnd, ← reverse_suffix, reverse_reverse]
  exact dropWhile_suffix _

theorem trimEnd_last (s : List UInt8) : ∀ c ∈ (trimEnd s).getLast?, c ≠ 32 ∧ c ≠ 9 := by
  intro c hc
  rw [trimEnd, getLast?_reverse] at hc
  have := head?_dropWhile_not (fun c => decide (c = 32 ∨ c = 9)) s.reverse
  rw [hc] at this
  simpa [not_or] using this

theorem cutAt_prefix_text (a b : List UInt8) (maxLen : ℕ) : cutAt (a ++ b) b maxLen <+: a := by
  rw [cutAt, length_append, Nat.add_sub_cancel, take_append_of_le_length (by split_ifs <;> omega)]
  exact take_prefix _ _

/-- A value that was read can be written as it is, or it stood between quotes. -/
theorem parseValue_cases {start r : List UInt8} (h : parseValue start maxLen = some r) :
    Bare r ∨ (39 : UInt8) ∉ r ∧ start.head? = some 39 := by
  rw [parseValue] at h
  split_ifs at h with hquote
  · obtain ⟨stop, hstop, rfl⟩ := map_eq_some_iff.mp h
    obtain ⟨a, ha, -, hnot, -⟩ := strchr_eq_some hstop
    rw [ha]
    exact .inr ⟨fun hmem => hnot ((cutAt_prefix_text a stop maxLen).subset hmem), hquote⟩
  · obtain ⟨stop, hstop, rfl⟩ := map_eq_some_iff.mp h
    obtain ⟨a, rfl, -, hnot, -⟩ := strchr_eq_some hstop
    have hpre := (trimEnd_prefix_self (cutAt (a ++ stop) stop maxLen)).trans
      (cutAt_prefix_text a stop maxLen)
    refine .inl ⟨fun hmem => hnot (hpre.subset hmem), fun hhead => hquote ?_, trimEnd_last _⟩
    obtain ⟨b, hb⟩ := hpre.trans (prefix_append a stop)
    rw [← hb, head?_append, hhead]
    rfl

theorem parseTag_cases {line r : List UInt8} (hT : IsName (ascii T))
    (h : parseTag line T size = some r) :
    Bare r ∨ (39 : UInt8) ∉ r ∧ tagStart T ++ [39] <:+: cstr line := by
  obtain ⟨found, hfound, hvalue⟩ := bind_eq_some_iff.mp h
  obtain ⟨a, rfl, ha, v, rfl⟩ := strstr_eq_some hfound
  rw [drop_left] at hvalue
  refine (parseValue_cases hvalue).imp_right fun ⟨hnot, hhead⟩ => ⟨hnot, ?_⟩
  obtain ⟨v, rfl⟩ := head?_eq_some_iff.mp hhead
  have hzero : (0 : UInt8) ∉ tagStart T ++ [39] := by
    rw [tagStart_eq]
    simp [hT.1.1]
  rw [show tagStart T ++ 39 :: v = (tagStart T ++ [39]) ++ v by simp, cstr_append _ ha,
    cstr_append _ hzero]
  exact ⟨a, cstr v, by simp⟩

/-- What the loop leaves in a text field was read from one of the lines. -/
theorem parsed_text (π : FileMetadata → List UInt8) (hT : IsName (ascii T)) (hinit : π {} = [])
    (hstep : ∀ m line, π (parseHeaderLine m line) = readText line T size (π m)) :
    Bare (π (parsed m tail)) ∨ (39 : UInt8) ∉ π (parsed m tail) ∧
      tagStart T ++ [39] <:+: cstr (generateFileHeader m ++ tail) := by
  have hloop : ∀ (lines : List (List UInt8)) (old : List UInt8),
      lines.foldl (fun old line => readText line T size old) old = old ∨
        ∃ line ∈ lines, parseTag line T size =
          some (lines.foldl (fun old line => readText line T size old) old) := by
    intro lines
    induction lines with
    | nil => exact fun old => .inl rfl
    | cons line lines ih =>
      intro old
      rw [foldl_cons]
      rcases ih (readText line T size old) with heq | ⟨l, hl, hread⟩
      · rw [heq, readText]
        cases hread : parseTag line T size with
        | none => exact .inl rfl
        | some r => exact .inr ⟨line, mem_cons_self, hread⟩
      · exact .inr ⟨l, mem_cons_of_mem _ hl, hread⟩
  rw [parsed_field π (fun old line => readText line T size old) hstep, hinit]
  rcases hloop (headerLines (generateFileHeader m ++ tail)) [] with heq | ⟨line, hline, hread⟩
  · rw [heq]
    exact .inl ⟨by simp, by simp, by simp⟩
  · have hsuffix := cstr_suffix_of_mem ((takeWhile_sublist _).subset hline)
    exact (parseTag_cases hT hread).imp_right fun h => ⟨h.1, h.2.trans hsuffix.isInfix⟩

/-- No text makes the parser take a value from between quotes, unless it has the quote itself. -/
theorem not_quoted_tag (hT : T ∈ bareTags) (hzero : ∀ s ∈ m.bare, (0 : UInt8) ∉ s)
    (hquoted : ∀ s ∈ m.quoted, IsLine s) (hclear : Clear T m tail)
    (hbare : ∀ s ∈ m.bare, s.head? ≠ some 39 ∧ ((64 : UInt8) ∉ s ∨ (39 : UInt8) ∉ s)) :
    ¬ tagStart T ++ [39] <:+: cstr (generateFileHeader m ++ tail) := by
  have hTags : ∀ T ∈ bareTags, T ∈ headerTags := by decide
  have hname := isName_of_mem (hTags T hT)
  have hnew : (10 : UInt8) ∉ tagStart T ++ [39] := by
    rw [tagStart_eq]
    simp [hname.1.2]
  have hcolon : ∀ s : List UInt8, (58 : UInt8) ∉ s → ¬ tagStart T ++ [39] <:+: s := fun s hs h =>
    hs (h.subset (by simp [tagStart_eq]))
  have htag : tagStart T <:+: tagStart T ++ [39] := (prefix_append _ _).isInfix
  have hlines : ∀ l ∈ headerBody m, (0 : UInt8) ∉ l ∧ ¬ tagStart T ++ [39] <:+: l := by
    intro l hl
    rcases mem_cons.mp hl with rfl | hl
    · exact ⟨by decide, hcolon _ (by decide)⟩
    obtain ⟨f, hf, rfl⟩ := mem_map.mp hl
    obtain ⟨hS, hw⟩ := mem_headerFields_cases hf
    have hSname := isName_of_mem hS
    have hvalue : (0 : UInt8) ∉ f.2 ∧ (ascii f.1 = ascii T → f.2.head? ≠ some 39) ∧
        ¬ tagStart T ++ [39] <:+: f.2 := by
      rcases hw with hw | hw | ⟨hnot, v, hv, hq⟩
      · obtain ⟨hhead, hor⟩ := hbare _ hw
        refine ⟨hzero _ hw, fun _ => hhead, fun h => ?_⟩
        rcases hor with hat | hquote
        · exact hat (h.subset (by simp [tagStart_eq]))
        · exact hquote (h.subset (by simp))
      · exact ⟨hw.1.1, fun _ => hw.2, fun h => hw.1.2 (h.subset (by simp [tagStart_eq]))⟩
      · have hinj : ∀ T ∈ bareTags, ∀ S ∈ headerTags, S ∉ bareTags → ascii S ≠ ascii T := by decide
        refine ⟨by simp [hq, quote, (hquoted v hv).1], fun h => absurd h (hinj T hT _ hS hnot),
          fun h => ?_⟩
        have hquote : (39 : UInt8) ∉ ascii T := by
          have hall : ∀ T ∈ bareTags, (39 : UInt8) ∉ ascii T := by decide
          exact hall T hT
        obtain ⟨u, hu, hin⟩ := tagStart_infix_value hquote (.inr ⟨v, hv, hq⟩) (htag.trans h)
        exact hclear.1 u hu hin
    refine ⟨noZero_fieldLine hSname hvalue.1, fun h => ?_⟩
    have hcons : fieldLine f = 64 :: (fieldLine f).tail := by
      rw [fieldLine_eq]
      rfl
    rw [hcons, infix_cons_iff, ← hcons] at h
    rcases h with h | h
    · -- the tag of the line itself: the quote would open its value
      have hown := tagStart_prefix_fieldLine hname hSname ((prefix_append _ _).trans h)
      rw [show tagStart T = tagStart f.1 by rw [tagStart_eq, tagStart_eq, hown], fieldLine,
        append_assoc, prefix_append_right_inj] at h
      refine hvalue.2.1 hown.symm ?_
      cases hv : f.2 with
      | nil => simp [hv] at h
      | cons x v =>
        rw [hv] at h
        simpa using (cons_prefix_cons.mp h).1.symm
    · have hpat : tagStart T ++ [39] = 64 :: ((ascii T ++ [58]) ++ [39]) := by simp [tagStart_eq]
      rw [hpat, infix_tail_fieldLine_iff hSname (by decide), ← hpat] at h
      exact hvalue.2.2 h
  have htext : generateFileHeader m ++ tail = joinLines (headerBody m) (dataMarker ++ tail) := by
    rw [generateFileHeader_eq, joinLines_eq_append, append_assoc, ← joinLines_eq_append]
  have hmarker : cstr (dataMarker ++ tail) = ascii "@DATA@" ++ 10 :: cstr tail :=
    cstr_append tail (by decide)
  rw [htext, cstr_joinLines fun l hl => (hlines l hl).1, infix_joinLines_iff hnew, hmarker,
    infix_append_cons_iff hnew]
  rintro (⟨l, hl, h⟩ | h | h)
  · exact (hlines l hl).2 h
  · exact hcolon _ (by decide) h
  · exact hclear.2 (htag.trans h)

/-- **Texts that are read back** have no at sign, no quote at the start and no blank at the end. -/
theorem bare_of_parsed (hzero : ∀ s ∈ m.bare, (0 : UInt8) ∉ s) (hquoted : ∀ s ∈ m.quoted, IsLine s)
    (hclear : ∀ T ∈ headerTags, Clear T m tail)
    (hread : (parsed m tail).bare = m.bare) : ∀ s ∈ m.bare, Bare s := by
  have hcases : ∀ s ∈ m.bare, ∃ T ∈ bareTags, Bare s ∨ (39 : UInt8) ∉ s ∧
      tagStart T ++ [39] <:+: cstr (generateFileHeader m ++ tail) := by
    rw [← hread]
    have hname : ∀ T ∈ bareTags, IsName (ascii T) := by decide
    simp only [FileMetadata.bare, forall_mem_cons]
    refine ⟨⟨"FILETYPE", by decide, ?_⟩, ⟨"FILEFORMAT", by decide, ?_⟩, ⟨"RUNWITH", by decide, ?_⟩,
      by simp⟩
    · exact parsed_text FileMetadata.filetype (hname _ (by decide)) rfl fun _ _ => rfl
    · exact parsed_text FileMetadata.fileformat (hname _ (by decide)) rfl fun _ _ => rfl
    · exact parsed_text FileMetadata.runWith (hname _ (by decide)) rfl fun _ _ => rfl
  have hall : ∀ s ∈ m.bare, s.head? ≠ some 39 ∧ ((64 : UInt8) ∉ s ∨ (39 : UInt8) ∉ s) := by
    intro s hs
    obtain ⟨T, -, hb | ⟨hnot, -⟩⟩ := hcases s hs
    · exact ⟨hb.head, .inl hb.noAt⟩
    · exact ⟨fun h => hnot (mem_of_head? h), .inr hnot⟩
  intro s hs
  obtain ⟨T, hT, hb | ⟨-, h⟩⟩ := hcases s hs
  · exact hb
  · have hTags : ∀ T ∈ bareTags, T ∈ headerTags := by decide
    exact absurd h (not_quoted_tag hT hzero hquoted (hclear T (hTags T hT)) hall)

/-! ## Where the data start -/

theorem dataStart_generate (hm : m.Printable) (hlen : (generateFileHeader m).length < 2 ^ 32)
    (tail : List UInt8) :
    dataStart (generateFileHeader m ++ tail) = some (generateFileHeader m).length := by
  have hmarker : dataMarker = ascii "@DATA@" ++ [10] := rfl
  have hnot : ∀ l ∈ headerBody m, (0 : UInt8) ∉ l ∧ ¬ ascii "@DATA@" ++ [10] <:+: l ++ [10] := by
    intro l hl
    refine ⟨noZero_of_mem_headerBody hm hl, ?_⟩
    rcases mem_cons.mp hl with rfl | hl
    · decide
    · obtain ⟨f, hf, rfl⟩ := mem_map.mp hl
      obtain ⟨hT, hw⟩ := mem_headerFields hm hf
      have hnew : ∀ s : List UInt8, (10 : UInt8) ∉ s → ¬ ascii "@DATA@" ++ [10] <:+: s :=
        fun s hs h => hs (h.subset (by decide))
      have hend : ¬ ascii "@DATA@" ++ [10] <:+: ([64, 10] : List UInt8) := by decide
      have hsplit : fieldLine f ++ [10] = (64 :: ascii f.1) ++ 58 :: (f.2 ++ [64, 10]) := by
        simp [fieldLine_eq]
      -- the marker has no colon, so it would lie in the name or behind it
      rw [hsplit, infix_append_cons_iff (by decide), not_or]
      refine ⟨hnew _ (by simp [(isName_of_mem hT).1.2]), fun h => ?_⟩
      rcases hw with hw | ⟨v, hv, hquote⟩
      · exact hend ((infix_append_of_head _ _ hw.2).mp h)
      · have hvalue : f.2 ++ [64, 10] = [] ++ 39 :: (v ++ 39 :: [64, 10]) := by
          simp [hquote, quote]
        rw [hvalue, infix_append_cons_iff (by decide), infix_append_cons_iff (by decide)] at h
        exact h.elim (hnew _ (by simp)) fun h => h.elim (hnew _ (hm.quoted v hv).1.2) hend
  have hfind : strstr dataMarker (generateFileHeader m ++ tail) = some (dataMarker ++ tail) := by
    rw [generateFileHeader_eq, joinLines_eq_append, append_assoc, ← joinLines_eq_append,
      hmarker, strstr_joinLines (by decide) hnot,
      strstr_here (by decide) (by decide) (prefix_append _ _)]
  have hseven : dataMarker.length = 7 := rfl
  have hle : dataMarker.length ≤ (generateFileHeader m).length := by
    rw [generateFileHeader_eq, joinLines_eq_append, length_append]
    omega
  rw [dataStart, hfind, map_some, length_append, length_append,
    show (generateFileHeader m).length + tail.length - (dataMarker.length + tail.length) + 7 =
      (generateFileHeader m).length by omega, u32_eq_self hlen]

end MinimalOS.Minimafs
